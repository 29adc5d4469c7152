import AScript.Bytecode.Dispatch

namespace AScript.Bytecode

open AScript.Lib Outcome

variable {V W F E X : Type}

namespace Fiber

variable {fb : Fiber V W F}

@[simp]
theorem goto_ip : (fb.goto ip st w).top.ip = ip := rfl

@[simp]
theorem goto_fn : (fb.goto ip st w).top.fn = fb.top.fn := rfl

@[simp]
theorem goto_stack : (fb.goto ip st w).stack = st := rfl

@[simp]
theorem goto_world : (fb.goto ip st w).world = w := rfl

@[simp]
theorem goto_goto : (fb.goto ip st w).goto ip' st' w' = fb.goto ip' st' w' := rfl

@[simp]
theorem pop_push (stack : List V) (v : V) : pop (stack ++ [v]) = some (v, stack) := by
  simp [pop]

theorem get_push (h : fb.top.slotBase + slot < fb.stack.length) :
    (fb.goto ip (fb.stack ++ [v]) w).get slot = fb.get slot :=
  List.getElem?_append_left h

end Fiber

namespace Vm

variable (vm : Vm V W F E X)

/-- The locals of the running frame are all on the stack. -/
def Windowed (fb : Fiber V W F) : Prop :=
  fb.top.slotBase + (vm.chunk fb).slotCount.toNat ≤ fb.stack.length

/-- The ip is inside a block. -/
def MidBlock (fb : Fiber V W F) : Prop :=
  ∃ is, (vm.chunk fb).instrs = .ok is ∧ (vm.chunk fb).InBlock is fb.top.ip

def Verified : Prop := ∀ fn, ∃ n, (vm.program fn).verifyChunk n = .ok ()

variable {vm} {fb : Fiber V W F} {is : List Instr}

@[simp]
theorem chunk_goto : vm.chunk (fb.goto ip st w) = vm.chunk fb := rfl

@[simp]
theorem settle_goto (r : Except E V × W) :
    (settle (fb.goto ip' st' w') ip st r : Conf V W F E X) = settle fb ip st r := by
  obtain ⟨e | v, w⟩ := r <;> rfl

theorem byteStep_mem (fb : Fiber V W F) (hi : (vm.chunk fb).instrs = .ok is)
    (hm : ⟨off, op, off + 1⟩ ∈ is)
    (hip : fb.top.ip = off) (hs : syncLaneOp op) : vm.byteStep fb = vm.single fb off op := by
  have hop := (Chunk.decodeFrom_mem hi hm).1
  simp only at hop
  rw [byteStep, hip, hop]
  exact if_pos hs

theorem single_load (ho : Chunk.isLoad op) (h : vm.single fb off op = .at fb') :
    fb'.top.fn = fb.top.fn ∧ fb'.top.ip = off + 1 + op.operandWidth := by
  have hsettle : ∀ {stack : List V} {r : Except E V × W},
      settle fb (off + 1 + op.operandWidth) stack r = (.at fb' : Conf V W F E X) →
      fb'.top.fn = fb.top.fn ∧ fb'.top.ip = off + 1 + op.operandWidth := by
    rintro stack ⟨v | e, w⟩ h <;> cases h
    exact ⟨rfl, rfl⟩
  cases op <;> cases ho
  all_goals
    simp only [single] at h
    split at h
  all_goals try split at h
  all_goals
    first
    | exact hsettle h
    | cases h
      try exact ⟨rfl, rfl⟩

theorem trace_later (hi : (vm.chunk fb).instrs = .ok is) (hops : Chunk.OpsAt is fb.top.ip ops)
    (hl : ∀ op ∈ ops.dropLast, Chunk.isLoad op ∧ syncLaneOp op) :
    ∀ s ∈ (trace vm.byteStep ops.length fb).tail,
      s.top.fn = fb.top.fn ∧ s.top.ip ∈ laterOffsets fb.top.ip ops := by
  induction ops generalizing fb with
  | nil => exact fun s hs => by cases hs
  | cons op ops ih =>
    cases ops with
    | nil =>
      intro s hs
      rw [List.length_singleton, trace] at hs
      split at hs <;> cases hs
    | cons op' ops =>
      have hop := hl op (by simp)
      have hstep := byteStep_mem fb hi hops.1 rfl hop.2
      cases hs : vm.single fb fb.top.ip op with
      | done d =>
        rw [hs] at hstep
        rw [List.length_cons, trace_succ_done hstep]
        exact fun s hs => by cases hs
      | «at» fb₁ =>
        rw [hs] at hstep
        obtain ⟨hfn, hip⟩ := single_load hop.1 hs
        have hi₁ : (vm.chunk fb₁).instrs = .ok is := by rw [chunk, hfn]; exact hi
        have ih := ih hi₁ (by rw [hip]; exact hops.2) fun o ho =>
          hl o (by rw [List.dropLast_cons_cons]; exact List.mem_cons_of_mem _ ho)
        intro s hs
        rw [List.length_cons, trace_succ_at hstep, List.tail_cons, List.length_cons,
          trace_head] at hs
        rw [laterOffsets, ← hip]
        cases hs with
        | head => exact ⟨hfn, List.mem_cons_self⟩
        | tail _ hs =>
          obtain ⟨hfn', hip'⟩ := ih s hs
          exact ⟨hfn'.trans hfn, List.mem_cons_of_mem _ hip'⟩

theorem components_load (kind : FusedKind) (op : Op) (h : op ∈ kind.components.dropLast) :
    Chunk.isLoad op ∧ syncLaneOp op := by
  cases kind <;> revert h <;> revert op <;> decide

section Components

variable (hi : (vm.chunk fb).instrs = .ok is)
  (hc : ∀ i ∈ is, (vm.chunk fb).checkOperands is n i = .ok ())

include hc

theorem local_some (hm : ⟨off, .getLocal, off + 1⟩ ∈ is) (hw : vm.Windowed fb) :
    fb.top.slotBase + (vm.chunk fb).readU16 (off + 1) < fb.stack.length ∧
      ∃ v, fb.get ((vm.chunk fb).readU16 (off + 1)) = some v := by
  have hslot := Chunk.inRange_ok.mp (hc _ hm)
  have hlt := Nat.lt_of_lt_of_le (Nat.add_lt_add_left hslot fb.top.slotBase) hw
  exact ⟨hlt, _, List.getElem?_eq_getElem hlt⟩

theorem const_some (hm : ⟨off, .const, off + 1⟩ ∈ is) :
    ∃ k, (vm.chunk fb).consts[(vm.chunk fb).readU16 (off + 1)]? = some k :=
  ⟨_, List.getElem?_eq_getElem (Chunk.inRange_ok.mp (hc _ hm))⟩

theorem name_some (hm : ⟨off, .getProp, off + 1⟩ ∈ is) :
    ∃ name, (vm.chunk fb).consts[(vm.chunk fb).readU16 (off + 1)]? = some (.str name) := by
  obtain ⟨_, -, h⟩ := bind_ok.mp (hc _ hm)
  simp only at h
  split at h
  next hstr =>
    obtain ⟨k, hk, hk'⟩ := Option.any_eq_true _ _ |>.mp hstr
    cases k <;> cases hk'
    exact ⟨_, hk⟩
  · cases h

omit hc
include hi

theorem step_getLocal (hm : ⟨off, .getLocal, off + 1⟩ ∈ is)
    (hv : (fb.goto off st w).get ((vm.chunk fb).readU16 (off + 1)) = some v) :
    vm.byteStep (fb.goto off st w) = .at (fb.goto (off + 3) (st ++ [v]) w) := by
  rw [byteStep_mem (fb.goto off st w) hi hm rfl rfl]
  simp only [single, chunk_goto, hv]
  rfl

theorem step_const (hm : ⟨off, .const, off + 1⟩ ∈ is)
    (hk : (vm.chunk fb).consts[(vm.chunk fb).readU16 (off + 1)]? = some k) :
    vm.byteStep (fb.goto off st w) = .at (fb.goto (off + 3) (st ++ [vm.const k]) w) := by
  rw [byteStep_mem (fb.goto off st w) hi hm rfl rfl]
  simp only [single, chunk_goto, hk]
  rfl

theorem step_getProp (hm : ⟨off, .getProp, off + 1⟩ ∈ is)
    (hk : (vm.chunk fb).consts[(vm.chunk fb).readU16 (off + 1)]? = some (.str name)) :
    vm.byteStep (fb.goto off (st ++ [obj]) w) =
      settle fb (off + 3) st (vm.readMember fb.top.fn off name obj w) := by
  rw [byteStep_mem (fb.goto off (st ++ [obj]) w) hi hm rfl rfl]
  simp only [single, chunk_goto, hk, Fiber.goto_stack, Fiber.pop_push, settle_goto]
  rfl

theorem step_add (hm : ⟨off, .add, off + 1⟩ ∈ is) (r : Except E V × W) :
    (settle fb off st r : Conf V W F E X).andThen vm.byteStep =
      vm.fusedAdd fb off (off + 1) st r := by
  obtain ⟨e | b, w⟩ := r
  · rfl
  · simp only [settle, andThen]
    rw [byteStep_mem (fb.goto off (st ++ [b]) w) hi hm rfl rfl]
    simp only [single, Fiber.goto_stack, Fiber.pop_push, fusedAdd]
    cases Fiber.pop st with
    | none => rfl
    | some p => exact settle_goto _

end Components

theorem execFused_eq (hi : (vm.chunk fb).instrs = .ok is)
    (hc : ∀ i ∈ is, (vm.chunk fb).checkOperands is n i = .ok ())
    (hops : Chunk.OpsAt is fb.top.ip kind.components)
    (hp : (vm.chunk fb).Packed fb.top.ip packed (.fused kind)) (hw : vm.Windowed fb) :
    vm.execFused fb fb.top.ip packed kind =
      iterate vm.byteStep kind.components.length fb := by
  obtain ⟨hlo, hhi⟩ := hp
  cases kind with
  | getLocalGetProp =>
    obtain ⟨h₀, h₁, -⟩ := hops
    replace h₁ : ⟨fb.top.ip + 3, .getProp, fb.top.ip + 4⟩ ∈ is := h₁
    obtain ⟨-, v, hv⟩ := local_some hc h₀ hw
    obtain ⟨name, hname⟩ := name_some hc h₁
    simp only [execFused, fusedGetProp, hlo, hhi (by decide), hv, hname]
    calc
      _ = vm.byteStep (fb.goto (fb.top.ip + 3) (fb.stack ++ [v]) fb.world) :=
        (step_getProp hi h₁ hname).symm
      _ = iterate vm.byteStep 1 _ := (congrFun iterate_one _).symm
      _ = iterate vm.byteStep 2 fb := (iterate_succ_at (step_getLocal hi h₀ hv)).symm
  | getLocalGetLocal =>
    obtain ⟨h₀, h₁, -⟩ := hops
    replace h₁ : ⟨fb.top.ip + 3, .getLocal, fb.top.ip + 4⟩ ∈ is := h₁
    obtain ⟨-, v₁, hv₁⟩ := local_some hc h₀ hw
    obtain ⟨hlt, v₂, hv₂⟩ := local_some hc h₁ hw
    simp only [execFused, hlo, hhi (by decide), hv₁, hv₂]
    calc
      _ = vm.byteStep (fb.goto (fb.top.ip + 3) (fb.stack ++ [v₁]) fb.world) :=
        (step_getLocal hi h₁ ((Fiber.get_push hlt).trans hv₂)).symm
      _ = iterate vm.byteStep 1 _ := (congrFun iterate_one _).symm
      _ = iterate vm.byteStep 2 fb := (iterate_succ_at (step_getLocal hi h₀ hv₁)).symm
  | getLocalConst =>
    obtain ⟨h₀, h₁, -⟩ := hops
    replace h₁ : ⟨fb.top.ip + 3, .const, fb.top.ip + 4⟩ ∈ is := h₁
    obtain ⟨-, v, hv⟩ := local_some hc h₀ hw
    obtain ⟨k, hk⟩ := const_some hc h₁
    simp only [execFused, hlo, hhi (by decide), hv, hk]
    calc
      _ = vm.byteStep (fb.goto (fb.top.ip + 3) (fb.stack ++ [v]) fb.world) :=
        (step_const hi h₁ hk).symm
      _ = iterate vm.byteStep 1 _ := (congrFun iterate_one _).symm
      _ = iterate vm.byteStep 2 fb := (iterate_succ_at (step_getLocal hi h₀ hv)).symm
  | getPropAdd =>
    obtain ⟨h₀, h₁, -⟩ := hops
    replace h₁ : ⟨fb.top.ip + 3, .add, fb.top.ip + 4⟩ ∈ is := h₁
    obtain ⟨name, hname⟩ := name_some hc h₀
    obtain hst | ⟨st, obj, hst⟩ := List.eq_nil_or_concat fb.stack
    · have hs : vm.byteStep fb = .done .panic := by
        rw [byteStep_mem fb hi h₀ rfl rfl]
        simp only [single, hname, hst]
        rfl
      simp only [execFused, hst]
      exact (iterate_succ_done hs).symm
    · rw [List.concat_eq_append] at hst
      have hs : vm.byteStep (fb.goto fb.top.ip (st ++ [obj]) fb.world) = _ :=
        step_getProp hi h₀ hname
      rw [← hst, show fb.goto fb.top.ip fb.stack fb.world = fb from rfl] at hs
      simp only [execFused, fusedGetProp, hlo, hname, hst, Fiber.pop_push]
      calc
        _ = vm.fusedAdd fb (fb.top.ip + 3) (fb.top.ip + 4) st
              (vm.readMember fb.top.fn fb.top.ip name obj fb.world) := rfl
        _ = _ := (step_add hi h₁ _).symm
        _ = iterate vm.byteStep 2 fb := by
          rw [iterate, hs, iterate_one]
  | constGetLocal =>
    obtain ⟨h₀, h₁, -⟩ := hops
    replace h₁ : ⟨fb.top.ip + 3, .getLocal, fb.top.ip + 4⟩ ∈ is := h₁
    obtain ⟨k, hk⟩ := const_some hc h₀
    obtain ⟨hlt, v, hv⟩ := local_some hc h₁ hw
    simp only [execFused, hlo, hhi (by decide), hk, hv]
    calc
      _ = vm.byteStep (fb.goto (fb.top.ip + 3) (fb.stack ++ [vm.const k]) fb.world) :=
        (step_getLocal hi h₁ ((Fiber.get_push hlt).trans hv)).symm
      _ = iterate vm.byteStep 1 _ := (congrFun iterate_one _).symm
      _ = iterate vm.byteStep 2 fb := (iterate_succ_at (step_const hi h₀ hk)).symm
  | getLocalGetPropAdd =>
    obtain ⟨h₀, h₁, h₂, -⟩ := hops
    replace h₁ : ⟨fb.top.ip + 3, .getProp, fb.top.ip + 4⟩ ∈ is := h₁
    replace h₂ : ⟨fb.top.ip + 6, .add, fb.top.ip + 7⟩ ∈ is := h₂
    obtain ⟨-, v, hv⟩ := local_some hc h₀ hw
    obtain ⟨name, hname⟩ := name_some hc h₁
    simp only [execFused, fusedGetProp, hlo, hhi (by decide), hv, hname]
    calc
      _ = vm.fusedAdd fb (fb.top.ip + 6) (fb.top.ip + 7) fb.stack
            (vm.readMember fb.top.fn (fb.top.ip + 3) name v fb.world) := rfl
      _ = _ := (step_add hi h₂ _).symm
      _ = iterate vm.byteStep 2 (fb.goto (fb.top.ip + 3) (fb.stack ++ [v]) fb.world) := by
        rw [iterate, step_getProp hi h₁ hname, iterate_one]
      _ = iterate vm.byteStep 3 fb := (iterate_succ_at (step_getLocal hi h₀ hv)).symm

variable (vm) in
def Follows (fb : Fiber V W F) (src : RecordSource) : Prop :=
  (vm.program src.fn).decodeChunk = some src.d ∧ (src.framesLen = fb.framesLen → src.fn = fb.top.fn)

theorem indexOf_some (h : DecodedInstr.indexOf rs off = some k) (hr : rs[k]? = some r) :
    r.off = off := by
  obtain ⟨hlt, hoff, -⟩ := List.findIdx?_eq_some_iff_getElem.mp h
  rw [List.getElem?_eq_getElem hlt] at hr
  cases hr
  simpa using hoff

theorem atEntry_spec (h : vm.atEntry warm fb = some src) :
    vm.Follows fb src ∧ src.framesLen = fb.framesLen ∧ src.fn = fb.top.fn ∧
      DecodedInstr.indexOf src.d fb.top.ip = some src.idx := by
  obtain ⟨d, hd, h⟩ := Option.bind_eq_some_iff.mp h
  obtain ⟨k, hk, h⟩ := Option.bind_eq_some_iff.mp h
  cases h
  unfold decoded at hd
  split at hd
  · exact ⟨⟨hd, fun _ => rfl⟩, rfl, rfl, hk⟩
  · cases hd

theorem resync_spec (hf : vm.Follows fb src) (h : vm.resync warm src fb = some src') :
    vm.Follows fb src' ∧ src'.framesLen = fb.framesLen ∧ src'.fn = fb.top.fn ∧
      DecodedInstr.indexOf src'.d fb.top.ip = some src'.idx := by
  unfold resync at h
  split at h
  · exact atEntry_spec h
  next hfn =>
    obtain ⟨k, hk, h⟩ := Option.bind_eq_some_iff.mp h
    cases h
    have hfn : src.fn = fb.top.fn := (not_not.mp hfn).symm
    exact ⟨⟨hf.1, fun _ => hfn⟩, rfl, hfn, hk⟩

theorem fetch_spec (hf : vm.Follows fb src) (h : vm.fetch warm src fb = some (r, src')) :
    (vm.chunk fb).decodeChunk = some src'.d ∧ r ∈ src'.d ∧ r.off = fb.top.ip ∧
      src'.framesLen = fb.framesLen ∧ src'.fn = fb.top.fn := by
  obtain ⟨src₁, hsrc, h⟩ := Option.bind_eq_some_iff.mp h
  obtain ⟨r', hr, h⟩ := Option.map_eq_some_iff.mp h
  cases h
  split at hsrc
  next hseq =>
    cases hsrc
    simp only [sequential, Bool.and_eq_true, decide_eq_true_eq, hr, Option.any_some] at hseq
    have hfn := hf.2 hseq.1.symm
    exact ⟨by rw [chunk, ← hfn]; exact hf.1, List.mem_of_getElem? hr, hseq.2, hseq.1.symm, hfn⟩
  next =>
    obtain ⟨hf', hlen, hfn, hidx⟩ := resync_spec hf hsrc
    exact ⟨by rw [chunk, ← hfn]; exact hf'.1, List.mem_of_getElem? hr, indexOf_some hidx hr, hlen,
      hfn⟩

def Local (fb fb' : Fiber V W F) : Prop := fb'.framesLen = fb.framesLen → fb'.top.fn = fb.top.fn

theorem settleArm_local (r : ArmResult V W F E X) (h : vm.settleArm fb off op r = .at fb') :
    Local fb fb' := by
  cases r with
  | step =>
    cases h
    exact fun _ => rfl
  | call =>
    cases h
    intro hl
    simp only [Fiber.framesLen, List.length_cons] at hl
    omega
  | «return» =>
    simp only [settleArm] at h
    split at h
    · cases h
    next f fs hb =>
      cases h
      intro hl
      simp only [Fiber.framesLen, hb, List.length_cons] at hl
      omega
  | _ => cases h

theorem settle_local {r : Except E V × W}
    (h : (settle fb ip st r : Conf V W F E X) = .at fb') : Local fb fb' := by
  obtain ⟨e | v, w⟩ := r <;> cases h
  exact fun _ => rfl

theorem fusedAdd_local {r : Except E V × W} (h : vm.fusedAdd fb off ip st r = .at fb') :
    Local fb fb' := by
  obtain ⟨e | v, w⟩ := r
  · cases h
  · simp only [fusedAdd] at h
    split at h
    · exact settle_local h
    · cases h

theorem single_local (h : vm.single fb off op = .at fb') : Local fb fb' := by
  unfold single at h
  dsimp only at h
  split at h
  all_goals repeat' split at h
  all_goals
    first
    | exact settle_local h
    | exact settleArm_local _ h
    | cases h
      try exact fun _ => rfl

theorem execFused_local (h : vm.execFused fb off packed kind = .at fb') : Local fb fb' := by
  cases kind
  all_goals
    simp only [execFused] at h
    repeat' split at h
  all_goals
    first
    | exact settle_local h
    | exact fusedAdd_local h
    | cases h
      try exact fun _ => rfl

theorem execRecord_local (h : vm.execRecord fb r = .at fb') : Local fb fb' := by
  unfold execRecord at h
  split at h
  all_goals
    split at h
    · first
      | exact single_local h
      | exact execFused_local h
    · cases h

theorem Verified.instrs (hv : vm.Verified) (fn : Nat) :
    ∃ is n, (vm.program fn).instrs = .ok is ∧
      (∀ i ∈ is, (vm.program fn).checkOperands is n i = .ok ()) ∧ (vm.program fn).Boundary 0 := by
  obtain ⟨n, hn⟩ := hv fn
  by_cases hne : 0 < (vm.program fn).code.length
  · obtain ⟨is, hi, hc, -⟩ := Chunk.verifyChunk_ok hn hne
    exact ⟨is, n, hi, hc, Chunk.boundary_zero hn⟩
  · have hz : (vm.program fn).code.length = 0 := by omega
    refine ⟨[], n, ?_, fun i hi => (nomatch hi), .inl hz.symm⟩
    rw [Chunk.instrs, hz]
    rfl

theorem record_stands (hv : vm.Verified) (hd : (vm.chunk fb).decodeChunk = some d) (hr : r ∈ d)
    (hoff : r.off = fb.top.ip) :
    ∃ is n, (vm.chunk fb).instrs = .ok is ∧
      (∀ i ∈ is, (vm.chunk fb).checkOperands is n i = .ok ()) ∧
      Chunk.OpsAt is fb.top.ip r.op.components ∧ (vm.chunk fb).Packed fb.top.ip r.a r.op ∧
      ∀ o ∈ laterOffsets fb.top.ip r.op.components, (vm.chunk fb).InBlock is o := by
  obtain ⟨is, n, hi, hc, hz⟩ := hv.instrs fb.top.fn
  obtain ⟨⟨rs, ts⟩, hrec, rfl⟩ := Option.map_eq_some_iff.mp hd
  have hst := (Chunk.decodeRecords_aligned hrec).stands hi DecodedInstr.fuseRecords_fuses hz r hr
  rw [← hoff]
  exact ⟨is, n, hi, hc, hst.ops, hst.packed, fun o ho => Chunk.decodeChunk_later hi hz hd hr ho⟩

theorem execRecord_eq (hv : vm.Verified) (hw : vm.Windowed fb)
    (hd : (vm.chunk fb).decodeChunk = some d) (hr : r ∈ d) (hoff : r.off = fb.top.ip) :
    vm.execRecord fb r = iterate vm.byteStep r.op.components.length fb := by
  obtain ⟨is, n, hi, hc, hops, hpack, -⟩ := record_stands hv hd hr hoff
  unfold execRecord
  rw [hoff]
  split
  next op hop =>
    rw [hop] at hops ⊢
    have hbyte := (Chunk.decodeFrom_mem hi hops.1).1
    simp only at hbyte
    rw [DOp.components, List.length_singleton, iterate_one, byteStep, hbyte]
  next kind hop =>
    rw [hop] at hops hpack ⊢
    rw [if_pos (by cases kind <;> rfl)]
    exact execFused_eq hi hc hops hpack hw

theorem execRecord_between (hv : vm.Verified) (hd : (vm.chunk fb).decodeChunk = some d)
    (hr : r ∈ d) (hoff : r.off = fb.top.ip) :
    ∀ s ∈ (trace vm.byteStep r.op.components.length fb).tail, vm.MidBlock s := by
  obtain ⟨is, n, hi, -, hops, -, hlater⟩ := record_stands hv hd hr hoff
  intro s hs
  have hload : ∀ op ∈ r.op.components.dropLast, Chunk.isLoad op ∧ syncLaneOp op := by
    intro op hop
    cases hk : r.op with
    | base op' =>
      rw [hk] at hop
      cases hop
    | fused kind =>
      rw [hk] at hop
      exact components_load kind op hop
  obtain ⟨hfn, hip⟩ := trace_later hi hops hload s hs
  refine ⟨is, ?_⟩
  rw [chunk, hfn]
  exact ⟨hi, hlater _ hip⟩

theorem components_length (d : DOp) : ∃ k, d.components.length = k + 1 := by
  cases d with
  | base => exact ⟨0, rfl⟩
  | fused kind => cases kind <;> exact ⟨_, rfl⟩

variable (vm) in
/-- The locals stay on the stack in every state of the byte run. -/
def StaysWindowed (fb : Fiber V W F) : Prop :=
  ∀ n fb', iterate vm.byteStep n fb = .at fb' → vm.Windowed fb'

variable (vm) in
def Ready (s : Fiber V W F × Option RecordSource) : Prop :=
  vm.StaysWindowed s.1 ∧ ∀ src ∈ s.2, vm.Follows s.1 src

variable {s s' : Fiber V W F × Option RecordSource}

theorem dispatch_covers (hv : vm.Verified) (hs : vm.Ready s) :
    Covers vm.byteStep (vm.dispatch warm) Prod.fst vm.MidBlock s := by
  have hmap : ∀ (o : Conf V W F E X) (src : Option RecordSource),
      (o.map fun fb => (fb, src)).map Prod.fst = o := fun o src => by cases o <;> rfl
  simp only [Covers, dispatch]
  split
  next =>
    refine ⟨0, by rw [hmap, iterate_one], fun s' hs' => ?_⟩
    rw [trace] at hs'
    split at hs' <;> cases hs'
  next r src hfetch =>
    obtain ⟨src₀, hsrc, hfetch⟩ := Option.bind_eq_some_iff.mp hfetch
    obtain ⟨hd, hr, hoff, -, -⟩ := fetch_spec (hs.2 src₀ hsrc) hfetch
    obtain ⟨k, hk⟩ := components_length r.op
    refine ⟨k, ?_, ?_⟩
    · rw [hmap, execRecord_eq hv (hs.1 0 s.1 rfl) hd hr hoff, hk]
    · rw [← hk]
      exact execRecord_between hv hd hr hoff

theorem dispatch_ready (hv : vm.Verified) (hs : vm.Ready s)
    (h : vm.dispatch warm s = .at s') : vm.Ready s' := by
  have hcov : Covers vm.byteStep (vm.dispatch warm) Prod.fst vm.MidBlock s := dispatch_covers hv hs
  obtain ⟨k, hk, -⟩ := hcov
  refine ⟨fun n fb hn => hs.1 (k + 1 + n) fb ?_, ?_⟩
  · rw [h] at hk
    rwa [(iterate_add_at hk).1]
  · unfold dispatch at h
    split at h
    next =>
      cases hb : vm.byteStep s.1 <;> rw [hb] at h <;> cases h
      exact fun src hsrc => nomatch hsrc
    next r src hfetch =>
      obtain ⟨src₀, hsrc, hfetch⟩ := Option.bind_eq_some_iff.mp hfetch
      obtain ⟨hd, -, -, hlen, hfn⟩ := fetch_spec (hs.2 src₀ hsrc) hfetch
      cases hb : vm.execRecord s.1 r <;> rw [hb] at h <;> cases h
      rintro _ ⟨⟩
      refine ⟨by rw [hfn]; exact hd, fun hl => ?_⟩
      rw [hfn]
      exact (execRecord_local hb (hl.symm.trans hlen)).symm

end Vm

/-- In a machine all of whose functions are verified: the records partition the code; every
byte jumped to is the offset of a fused record and lies inside none; a record does what the
instructions it stands for do, with the offsets errors are attributed to; and a burst
dispatched from records, from a fiber whose byte run keeps the locals on the stack, is the
byte run without some of the states inside blocks. -/
theorem decoded_dispatch_refines (vm : Vm V W F E X) (warm : W → Nat → Bool)
    (hv : vm.Verified) :
    (∀ fn rs ts, (vm.program fn).decodeRecords = some (rs, ts) →
      rs.flatMap (vm.program fn).bytesOf = (vm.program fn).code) ∧
    (∀ fn is d, (vm.program fn).instrs = .ok is → (vm.program fn).decodeChunk = some d →
      (∀ o, (vm.program fn).JumpsTo is o → ∃ r ∈ d, r.off = o) ∧
      ∀ r ∈ d, ∀ o ∈ laterOffsets r.off r.op.components, ¬ (vm.program fn).JumpsTo is o) ∧
    (∀ fb d r, vm.Windowed fb → (vm.chunk fb).decodeChunk = some d → r ∈ d →
      r.off = fb.top.ip →
      vm.execRecord fb r = iterate vm.byteStep r.op.components.length fb) ∧
    ∀ fb, vm.StaysWindowed fb → ∀ m, ∃ n, m ≤ n ∧
      (iterate (vm.dispatch warm) m (fb, vm.atEntry warm fb)).map Prod.fst =
        iterate vm.byteStep n fb ∧
      Thins vm.MidBlock (trace vm.byteStep n fb)
        ((trace (vm.dispatch warm) m (fb, vm.atEntry warm fb)).map Prod.fst) := by
  refine ⟨fun fn rs ts hd => ?_, fun fn is d hi hd => ⟨fun o ho => ?_, fun r hr o ho => ?_⟩,
    fun fb d r hw hd hr hoff => Vm.execRecord_eq hv hw hd hr hoff, fun fb hw m => ?_⟩
  · exact (Chunk.decodeRecords_aligned hd).partition
  · exact Chunk.decodeChunk_target hi hd ho
  · obtain ⟨-, -, -, -, hz⟩ := hv.instrs fn
    exact (Chunk.decodeChunk_later hi hz hd hr ho).2
  · have hready : vm.Ready (fb, vm.atEntry warm fb) :=
      ⟨hw, fun src hsrc => (Vm.atEntry_spec hsrc).1⟩
    exact coarse_run (fun s hs => Vm.dispatch_covers hv hs)
      (fun s s' hs h => Vm.dispatch_ready hv hs h) m hready

/-- `NIL; POP; GET_LOCAL 0; GET_LOCAL 1; POP; RETURN`, with two locals. -/
def poppedLocals : Vm Nat Unit Unit Unit Unit where
  program _ := { Chunk.new with code := [1, 4, 8, 0, 0, 8, 1, 0, 4, 47], slotCount := 2 }
  const _ := 0
  readMember _ _ _ _ w := (.error (), w)
  notString _ _ _ := ()
  add _ _ a b w := (.ok (a + b), w)
  arm op _ fb :=
    match op with
    | .nil => .step false (fb.stack ++ [0]) () ()
    | .pop => .step false fb.stack.dropLast () ()
    | .«return» => .«return» fb.stack.dropLast () ()
    | _ => .panic
  needsAsync := ()

theorem poppedLocals_verified : poppedLocals.Verified := fun _ => ⟨0, rfl⟩

/-- A fiber at an offset with the two locals and no operands. -/
def twoLocals (ip : Nat) : Fiber Nat Unit Unit := ⟨⟨0, ip, 0, ()⟩, [], [7, 8], ()⟩

theorem twoLocals_staysWindowed : poppedLocals.StaysWindowed (twoLocals 0) := by
  intro n fb h
  match n with
  | 0 | 1 | 2 | 3 | 4 | 5 =>
    cases h
    exact Nat.le_of_ble_eq_true rfl
  | n + 6 =>
    have hdone : iterate poppedLocals.byteStep 6 (twoLocals 0) = .done _ := rfl
    rw [Nat.add_comm, (iterate_add_done hdone).1] at h
    cases h

/-- From the start the locals stay below the operands, and the fused pair reads them. -/
theorem decoded_dispatch_refines_locals :
    ∃ n, 6 ≤ n ∧
      (iterate (poppedLocals.dispatch fun _ _ => true) 6
        (twoLocals 0, poppedLocals.atEntry (fun _ _ => true) (twoLocals 0))).map Prod.fst =
        iterate poppedLocals.byteStep n (twoLocals 0) ∧
      Thins poppedLocals.MidBlock (trace poppedLocals.byteStep n (twoLocals 0))
        ((trace (poppedLocals.dispatch fun _ _ => true) 6
          (twoLocals 0, poppedLocals.atEntry (fun _ _ => true) (twoLocals 0))).map Prod.fst) :=
  (decoded_dispatch_refines poppedLocals (fun _ _ => true) poppedLocals_verified).2.2.2 _
    twoLocals_staysWindowed 6

/-- From the boundary of the `POP`, which takes a local off the stack, the second
`GET_LOCAL` reads what the first pushed; the fused pair reads past the end. -/
theorem fused_pair_misses_popped_local :
    ¬ ∀ (vm : Vm Nat Unit Unit Unit Unit) (warm : Unit → Nat → Bool) (fb : Fiber Nat Unit Unit),
      vm.Verified → (vm.chunk fb).Boundary fb.top.ip → ∀ m, ∃ n, m ≤ n ∧
        (iterate (vm.dispatch warm) m (fb, vm.atEntry warm fb)).map Prod.fst =
          iterate vm.byteStep n fb := by
  intro h
  have hb : (poppedLocals.chunk (twoLocals 1)).Boundary (twoLocals 1).top.ip :=
    .inr ⟨_, rfl, ⟨1, .pop, 2⟩, by decide, rfl⟩
  obtain ⟨n, hn, heq⟩ :=
    h poppedLocals (fun _ _ => true) (twoLocals 1) poppedLocals_verified hb 5
  have hbyte : iterate poppedLocals.byteStep 5 (twoLocals 1) = .done (.exit () _) := rfl
  obtain ⟨k, rfl⟩ := Nat.exists_eq_add_of_le hn
  rw [(iterate_add_done hbyte).1] at heq
  cases heq

end AScript.Bytecode
