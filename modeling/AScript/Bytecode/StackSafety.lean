import AScript.Bytecode.Frame

namespace AScript.Bytecode

open AScript.Lib

variable {b : Body} {f f' : Frame} {a : Act}

def Act.depth (d : Nat) : Act → Option Nat
  | .pop => if d = 0 then none else some (d - 1)
  | .peek back => if back < d then some d else none
  | .push => some (d + 1)
  | _ => some d

def reach : Nat → List Act → Option Nat
  | d, [] => some d
  | d, a :: as => (a.depth d).bind fun d' => reach d' as

@[simp] theorem reach_nil : reach d [] = some d := rfl

@[simp] theorem reach_pop : reach (d + 1) (.pop :: as) = reach d as := rfl

@[simp] theorem reach_push : reach d (.push :: as) = reach (d + 1) as := rfl

@[simp] theorem reach_peek (h : back < d) : reach d (.peek back :: as) = reach d as := by
  simp [reach, Act.depth, h]

@[simp] theorem reach_index : reach d (.index t i :: as) = reach d as := rfl

@[simp] theorem reach_local : reach d (.«local» s :: as) = reach d as := rfl

@[simp] theorem reach_cell : reach d (.cell s :: as) = reach d as := rfl

@[simp] theorem reach_upvalue : reach d (.upvalue i :: as) = reach d as := rfl

@[simp] theorem reach_aware : reach d (.aware s :: as) = reach d as := rfl

@[simp] theorem reach_pops (n : Nat) : reach (d + n) (pops n ++ as) = reach d as := by
  induction n with
  | zero => rfl
  | succ n ih => exact ih

@[simp] theorem reach_pushes (n : Nat) : reach d (pushes n ++ as) = reach (d + n) as := by
  induction n generalizing d with
  | zero => rfl
  | succ n ih =>
    have h : reach d (pushes (n + 1) ++ as) = reach (d + 1) (pushes n ++ as) := rfl
    rw [h, ih, Nat.add_assoc, Nat.add_comm 1 n]

theorem reach_take (h : reach d as = some d') (n : Nat) : reach d (as.take n) ≠ none := by
  induction as generalizing d n with
  | nil => simp
  | cons a as ih =>
    cases n with
    | zero => simp
    | succ n =>
      rw [reach] at h
      obtain ⟨d₁, h₁, h⟩ := Option.bind_eq_some_iff.mp h
      rw [List.take_succ_cons, reach, h₁]
      exact ih h n

theorem act_depth (h : f.act b a = .ok f') : a.depth f.depth = some f'.depth := by
  cases a <;> simp only [Frame.act, Frame.require] at h <;> simp only [Act.depth]
  case pop =>
    split at h
    · cases h
    next hd =>
      cases h
      rw [if_neg hd]
  case peek =>
    split at h
    next hd =>
      cases h
      rw [if_pos (of_decide_eq_true hd)]
    · cases h
  case push => cases h; rfl
  all_goals
    split at h
    · cases h
      rfl
    · cases h

theorem act_belowBase (h : f.act b a = .error .belowBase) : a.depth f.depth = none := by
  cases a <;> simp only [Frame.act, Frame.require] at h <;> simp only [Act.depth]
  case pop =>
    split at h
    next hd => rw [if_pos hd]
    · cases h
  case peek =>
    split at h
    · cases h
    next hd => rw [if_neg (by simpa using hd)]
  case push => cases h
  all_goals
    split at h
    · cases h
    · cases h

theorem perform_depth (h : f.perform b as = .ok f') : reach f.depth as = some f'.depth := by
  induction as generalizing f with
  | nil =>
    cases h
    rfl
  | cons a as ih =>
    obtain ⟨f₁, h₁, h⟩ := bind_ok.mp h
    rw [reach, act_depth h₁]
    exact ih h

theorem perform_belowBase (h : f.perform b as = .error .belowBase) : reach f.depth as = none := by
  induction as generalizing f with
  | nil => cases h
  | cons a as ih =>
    rw [Frame.perform] at h
    rw [reach]
    cases h₁ : f.act b a with
    | error x =>
      rw [h₁] at h
      cases h
      rw [act_belowBase h₁]
      rfl
    | ok f₁ =>
      rw [h₁] at h
      rw [act_depth h₁]
      exact ih h

def Act.Aside (a : Act) : Prop := ∀ d, a.depth d = some d

theorem reach_aside (h : ∀ a ∈ as, Act.Aside a) : reach d (as ++ as') = reach d as' := by
  induction as with
  | nil => rfl
  | cons a as ih =>
    rw [List.cons_append, reach, h a List.mem_cons_self d, Option.bind_some]
    exact ih fun a ha => h a (List.mem_cons_of_mem _ ha)

theorem capture_aside (u : UpvalueDescriptor) : (capture u).Aside := by
  intro d
  unfold capture
  split <;> rfl

theorem bindImport_aside (h : a ∈ bindImport n) : a.Aside := by
  intro d
  unfold bindImport at h
  repeat' split at h
  all_goals simp only [List.mem_singleton, List.not_mem_nil] at h
  all_goals subst h
  all_goals rfl

theorem bindImports_aside (h : a ∈ bindImports i) : a.Aside := by
  cases i with
  | named s ns =>
    obtain ⟨n, -, hn⟩ := List.mem_flatMap.mp h
    exact bindImport_aside hn
  | «namespace» s n => exact bindImport_aside h

def Body.NoStatics (b : Body) (operandAt : Nat) (op : Op) : Prop :=
  op = .«class» → ∀ p ∈ b.chunk.classProtos[b.chunk.readU16 operandAt]?, p.staticMethodNames = []

instance : Decidable (Body.NoStatics b operandAt op) :=
  inferInstanceAs (Decidable (_ → ∀ p ∈ _, _))

theorem buildClass_reach (h : p.staticMethodNames = []) :
    reach (d + Chunk.classPops p) (buildClass p) = some (d + 1) := by
  have hp : d + Chunk.classPops p =
      d + p.hasSuper.toNat + p.defaultFields.length + p.methodNames.length + 0 := by
    unfold Chunk.classPops
    omega
  rw [hp, buildClass, h]
  simp only [List.append_assoc, List.length_nil, reach_pops, reach_push, reach_nil]

theorem arm_reach (hop : op ≠ .method) (hs : b.NoStatics operandAt op)
    (hc : op = .«class» → b.chunk.readU16 operandAt < b.chunk.classProtos.length) :
    reach (d + (b.chunk.opStackPopsPushes operandAt op).pops) (b.arm operandAt k op) =
      some (d + (b.chunk.opStackPopsPushes operandAt op).pushes) := by
  cases op <;> simp [Body.arm, Chunk.opStackPopsPushes, stackEffect, Chunk.countOperand]
  case swap => rfl
  case rot3 => rfl
  case checkParam => split <;> simp
  case call | callElided =>
    rw [reach_peek (by omega), reach_pops]
    rfl
  case callSpread =>
    rw [Nat.add_assoc, Nat.add_comm 1 k, reach_pops]
    rfl
  case closure =>
    rw [reach_aside]
    · rfl
    · intro a ha
      obtain ⟨p, -, ha⟩ := List.mem_flatMap.mp ha
      obtain ⟨u, -, rfl⟩ := List.mem_map.mp ha
      exact capture_aside u
  case «import» =>
    rw [← List.append_nil (List.flatMap ..), reach_aside]
    · rfl
    · intro a ha
      obtain ⟨i, -, ha⟩ := List.mem_flatMap.mp ha
      exact bindImports_aside ha
  case deferPush | deferPushMethod =>
    rw [← List.append_nil (pops _), reach_pops]
    rfl
  case «class» =>
    have hp := List.getElem?_eq_getElem (hc rfl)
    rw [hp]
    simpa using buildClass_reach (hs rfl _ hp)
  case method => exact hop rfl

theorem performed_reach (hs : b.NoStatics (f.ip + 1) op)
    (hc : op = .«class» → b.chunk.readU16 (f.ip + 1) < b.chunk.classProtos.length) (d : Nat) :
    reach (d + (b.chunk.opStackPopsPushes (f.ip + 1) op).pops) (b.performed ch f op) ≠ none := by
  by_cases hop : op = .method
  · subst hop
    have hnil : b.performed ch f .method = [] := by
      unfold Body.performed
      split
      · exact List.take_nil
      · rfl
    rw [hnil]
    exact Option.some_ne_none _
  · have hr := arm_reach (d := d) (k := ch.spread) hop hs hc
    unfold Body.performed
    split
    · exact reach_take hr _
    · rw [hr]
      exact Option.some_ne_none _

theorem exec_eq (hop : (b.chunk.code[f.ip]?).bind Op.fromU8 = some op) : b.exec ch f =
    (f.perform b (b.performed ch f op) >>= fun f' =>
      if (f.raises ch op).isSome then .ok ⟨f', .ended⟩
      else .ok ⟨{ f' with
        ip := (b.transfer (f.ip + 1) ch op (f.ip + 1 + op.operandWidth)).1 },
        (b.transfer (f.ip + 1) ch op (f.ip + 1 + op.operandWidth)).2⟩) := by
  simp only [Body.exec, hop, Body.performed]
  cases f.raises ch op <;> rfl

def Body.StaysAbove (b : Body) (ch : Choice) (f : Frame) : Prop :=
  ∀ op ∈ (b.chunk.code[f.ip]?).bind Op.fromU8, reach f.depth (b.performed ch f op) ≠ none

instance : Decidable (b.StaysAbove ch f) :=
  inferInstanceAs (Decidable (∀ op ∈ (b.chunk.code[f.ip]?).bind Op.fromU8,
    reach f.depth (b.performed ch f op) ≠ none))

theorem exec_ne_belowBase (h : b.StaysAbove ch f) : b.exec ch f ≠ .error .belowBase := by
  intro hx
  cases hop : (b.chunk.code[f.ip]?).bind Op.fromU8 with
  | none => simp [Body.exec, hop] at hx
  | some op =>
    rw [exec_eq hop] at hx
    obtain hx | ⟨f', -, hx⟩ := bind_error.mp hx
    · exact h op hop (perform_belowBase hx)
    · split at hx <;> cases hx

section Verified

variable {c : Chunk} {is : List Instr}

theorem Chunk.verifyChunk_ok (h : c.verifyChunk n = .ok ()) (hne : 0 < c.code.length) :
    ∃ is, c.instrs = .ok is ∧ (∀ i ∈ is, c.checkOperands is n i = .ok ()) ∧
      c.verifyStackBalance is = .ok () := by
  rw [verifyChunk, if_neg (by simpa using List.ne_nil_of_length_pos hne)] at h
  obtain ⟨is, hi, h⟩ := bind_ok.mp h
  obtain ⟨_, hf, h⟩ := bind_ok.mp h
  exact ⟨is, hi, fun i him => forM_ok hf him, h⟩

theorem Chunk.verifyStackBalance_ok (h : c.verifyStackBalance is = .ok ()) (h0 : 0 < is.length) :
    ∃ entry, c.depths is h0 = .ok entry := by
  rw [verifyStackBalance, dif_pos h0] at h
  obtain ⟨entry, he, -⟩ := bind_ok.mp h
  exact ⟨entry, he⟩

theorem Chunk.instrs_pos (h : c.instrs = .ok is) (hne : 0 < c.code.length) : 0 < is.length := by
  obtain ⟨k, hk⟩ := Nat.exists_eq_succ_of_ne_zero hne.ne'
  rw [instrs, hk] at h
  obtain ⟨hn, -⟩ | ⟨_, _, -, -, -, -, rfl⟩ := decodeFrom_succ h
  · exact absurd (List.getElem?_eq_none_iff.mp hn) (by omega)
  · exact Nat.succ_pos _

def Chunk.depthAt (c : Chunk) (off : Nat) : Option Nat := do
  let is ← c.instrs.toOption
  if h : 0 < is.length then
    let entry ← (c.depths is h).toOption
    (resolve is off).bind entry
  else none

theorem Chunk.depthAt_eq (hi : c.instrs = .ok is) (h0 : 0 < is.length)
    (hd : c.depths is h0 = .ok entry) (off : Nat) :
    c.depthAt off = (resolve is off).bind entry := by
  simp [depthAt, hi, h0, hd, Except.toOption]

theorem Chunk.visit_ok {j : Fin is.length} (h : c.visit is j d = .ok succs) :
    (c.opStackPopsPushes (is.get j).operandAt (is.get j).op).pops ≤ d ∧
      ∃ ss, c.successors is (is.get j) = .ok ss ∧
        succs = ss.map fun t => (t, d -
          (c.opStackPopsPushes (is.get j).operandAt (is.get j).op).pops +
          (c.opStackPopsPushes (is.get j).operandAt (is.get j).op).pushes) := by
  simp only [visit] at h
  split at h
  · cases h
  next hd =>
    obtain ⟨ss, hs, h⟩ := bind_ok.mp h
    exact ⟨Nat.le_of_not_lt hd, ss, hs, (pure_ok.mp h).symm⟩

theorem Chunk.depths_walk {h0 : 0 < is.length} (hd : c.depths is h0 = .ok entry) :
    (c.flow is).walk (2 * is.length + 2) [(⟨0, h0⟩, 0)] (fun _ => none) = some (.ok entry) := by
  rw [← hd, depths, Option.some_get]

theorem Chunk.depths_flow {h0 : 0 < is.length} (hd : c.depths is h0 = .ok entry)
    (hj : entry j = some d) :
    (c.opStackPopsPushes (is.get j).operandAt (is.get j).op).pops ≤ d ∧
      ∃ ss, c.successors is (is.get j) = .ok ss ∧ ∀ t ∈ ss, entry t =
        some (d - (c.opStackPopsPushes (is.get j).operandAt (is.get j).op).pops +
          (c.opStackPopsPushes (is.get j).operandAt (is.get j).op).pushes) := by
  have hw := depths_walk hd
  obtain ⟨succs, hv⟩ := Flow.walk_visited hw hj
  obtain ⟨hle, ss, hs, rfl⟩ := visit_ok hv
  refine ⟨hle, ss, hs, fun t ht => ?_⟩
  exact (Flow.walk_start hw).2 j d _ hj hv _ (List.mem_map_of_mem ht)

theorem Chunk.resolve_zero (hi : c.instrs = .ok is) (h0 : 0 < is.length) :
    resolve is 0 = some ⟨0, h0⟩ := by
  cases is with
  | nil => cases h0
  | cons i is =>
    have hoff : i.off = 0 := decodeFrom_head hi
    simp [resolve, List.finRange_succ, hoff]

theorem Chunk.depthAt_zero (hv : c.verifyChunk n = .ok ()) (hne : 0 < c.code.length) :
    c.depthAt 0 = some 0 := by
  obtain ⟨is, hi, -, hb⟩ := verifyChunk_ok hv hne
  have h0 := instrs_pos hi hne
  obtain ⟨entry, he⟩ := verifyStackBalance_ok hb h0
  rw [depthAt_eq hi h0 he, resolve_zero hi h0]
  exact (Flow.walk_start (depths_walk he)).1

theorem Chunk.pushSucc_ok (h : c.pushSucc is off t = .ok j) : resolve is t = some j := by
  unfold pushSucc at h
  split at h
  · split at h
    next hr =>
      cases h
      exact hr
    · cases h
  · cases h

theorem Chunk.pushFallthrough_ok (h : pushFallthrough is i = .ok j) :
    resolve is (nextOffset i) = some j := by
  unfold pushFallthrough at h
  split at h
  next hr =>
    cases h
    exact hr
  · cases h

theorem transfer_resolves {i : Instr} (hs : b.chunk.successors is i = .ok ss)
    (ht : b.transfer i.operandAt ch i.op (Chunk.nextOffset i) = (ip, .running)) :
    ∃ t ∈ ss, Chunk.resolve is ip = some t := by
  generalize hop : i.op = op at ht
  unfold Chunk.successors at hs
  rw [hop] at hs
  cases op <;> simp only [Body.transfer, Prod.mk.injEq, reduceCtorEq, and_false, and_true] at ht
  all_goals simp only at hs
  case jump | loop =>
    obtain ⟨t, ht', hs⟩ := bind_ok.mp hs
    cases hs
    exact ⟨t, List.mem_singleton_self t, ht ▸ Chunk.pushSucc_ok ht'⟩
  case jumpIfFalse | jumpIfTrue | jumpIfNotNil | jumpIfArgSupplied =>
    obtain ⟨t, ht', hs⟩ := bind_ok.mp hs
    obtain ⟨u, hu, hs⟩ := bind_ok.mp hs
    cases hs
    split at ht
    · exact ⟨t, by simp, ht ▸ Chunk.pushSucc_ok ht'⟩
    · exact ⟨u, by simp, ht ▸ Chunk.pushFallthrough_ok hu⟩
  all_goals
    obtain ⟨u, hu, hs⟩ := bind_ok.mp hs
    cases hs
    exact ⟨u, List.mem_singleton_self u, ht ▸ Chunk.pushFallthrough_ok hu⟩

end Verified

/-- A running frame is at the depth the verifier computed for its instruction. -/
def Body.AtDepth (b : Body) (a : Activation) : Prop :=
  a.status = .running → a.frame.ip < b.chunk.code.length →
    b.chunk.depthAt a.frame.ip = some a.frame.depth

/-- The step resumes no suspended frame and builds no class with static methods. -/
def Body.Accounted (b : Body) (a : Activation) : Event → Prop
  | .exec _ => ∀ op ∈ (b.chunk.code[a.frame.ip]?).bind Op.fromU8,
      b.NoStatics (a.frame.ip + 1) op
  | .resume => False

instance : ∀ a e, Decidable (b.Accounted a e)
  | a, .exec _ => inferInstanceAs (Decidable (∀ op ∈ (b.chunk.code[a.frame.ip]?).bind Op.fromU8,
      b.NoStatics (a.frame.ip + 1) op))
  | _, .resume => inferInstanceAs (Decidable False)

theorem Chunk.checkOperands_class {c : Chunk} (h : c.checkOperands is n i = .ok ())
    (hop : i.op = .«class») : c.readU16 i.operandAt < c.classProtos.length := by
  simp only [checkOperands, hop, inRange] at h
  split at h
  · assumption
  · cases h

structure Body.Checked (b : Body) (ip d : Nat) (op : Op) : Prop where
  fetch : (b.chunk.code[ip]?).bind Op.fromU8 = some op
  enough : (b.chunk.opStackPopsPushes (ip + 1) op).pops ≤ d
  «class» : op = .«class» → b.chunk.readU16 (ip + 1) < b.chunk.classProtos.length
  next : ∀ ch ip', b.transfer (ip + 1) ch op (ip + 1 + op.operandWidth) = (ip', .running) →
    b.chunk.depthAt ip' = some (d - (b.chunk.opStackPopsPushes (ip + 1) op).pops +
      (b.chunk.opStackPopsPushes (ip + 1) op).pushes)

theorem Body.checked_of_depthAt (hv : b.chunk.verifyChunk n = .ok ())
    (hip : ip < b.chunk.code.length) (hd : b.chunk.depthAt ip = some d) :
    ∃ op, b.Checked ip d op := by
  obtain ⟨is, hi, hops, hb⟩ := Chunk.verifyChunk_ok hv (Nat.zero_lt_of_lt hip)
  have h0 := Chunk.instrs_pos hi (Nat.zero_lt_of_lt hip)
  obtain ⟨entry, he⟩ := Chunk.verifyStackBalance_ok hb h0
  rw [Chunk.depthAt_eq hi h0 he] at hd
  obtain ⟨j, hj, hd⟩ := Option.bind_eq_some_iff.mp hd
  obtain ⟨hle, ss, hss, hflow⟩ := Chunk.depths_flow he hd
  obtain ⟨hop, hat⟩ := Chunk.decodeFrom_mem hi (List.get_mem is j)
  have hcls := Chunk.checkOperands_class (hops _ (List.get_mem is j))
  have hoff := Chunk.resolve_off hj
  rw [hoff] at hop hat
  rw [hat] at hle hflow hcls
  refine ⟨(is.get j).op, hop, hle, hcls, fun ch ip' ht => ?_⟩
  rw [← hoff, ← Chunk.nextOffset, hoff, ← hat] at ht
  obtain ⟨t, htm, ht⟩ := transfer_resolves hss ht
  rw [Chunk.depthAt_eq hi h0 he, ht, Option.bind_some, hflow t htm]

theorem staysAbove_of_checked (h : b.Checked f.ip f.depth op)
    (hs : b.NoStatics (f.ip + 1) op) : b.StaysAbove ch f := by
  intro op' hop
  cases h.fetch.symm.trans hop
  have hr : reach _ (b.performed ch f op) ≠ none :=
    performed_reach hs h.class (f.depth - (b.chunk.opStackPopsPushes (f.ip + 1) op).pops)
  rwa [Nat.sub_add_cancel h.enough] at hr

theorem Body.Checked.reach (h : b.Checked ip d op) (hs : b.NoStatics (ip + 1) op)
    (hop : op ≠ .method) (k : Nat) : reach d (b.arm (ip + 1) k op) =
      some (d - (b.chunk.opStackPopsPushes (ip + 1) op).pops +
        (b.chunk.opStackPopsPushes (ip + 1) op).pushes) := by
  rw [← arm_reach hop hs h.class, Nat.sub_add_cancel h.enough]

theorem Body.Checked.perform_depth (h : b.Checked f.ip f.depth op)
    (hs : b.NoStatics (f.ip + 1) op) (hop : op ≠ .method)
    (hf : f.perform b (b.arm (f.ip + 1) k op) = .ok f') :
    f'.depth = f.depth - (b.chunk.opStackPopsPushes (f.ip + 1) op).pops +
      (b.chunk.opStackPopsPushes (f.ip + 1) op).pushes := by
  have hr := h.reach hs hop k
  rw [AScript.Bytecode.perform_depth hf] at hr
  exact Option.some_inj.mp hr

theorem exec_atDepth (h : b.Checked f.ip f.depth op) (hs : b.NoStatics (f.ip + 1) op) :
    b.exec ch f ≠ .error .belowBase ∧ ∀ a, b.exec ch f = .ok a → b.AtDepth a := by
  refine ⟨exec_ne_belowBase (staysAbove_of_checked h hs), fun a he => ?_⟩
  simp only [Body.exec, h.fetch] at he
  cases hr : f.raises ch op with
  | some n =>
    rw [hr] at he
    obtain ⟨f', -, he⟩ := bind_ok.mp he
    cases he
    intro hrun
    cases hrun
  | none =>
    rw [hr] at he
    obtain ⟨f', hf, he⟩ := bind_ok.mp he
    cases he
    intro hrun _
    -- the frame runs on, so this is no METHOD, the one entry of the table without an arm
    have hop : op ≠ .method := fun hm => by
      subst hm
      cases hrun
    rw [h.perform_depth hs hop hf]
    exact h.next ch _ (Prod.ext rfl hrun)

theorem step_atDepth {s s' : Activation} (hv : b.chunk.verifyChunk b.params.length = .ok ())
    (ha : b.AtDepth s)
    (hs : b.Accounted s e) (hstep : b.machine.step s e = some (o, s')) :
    o ≠ some .belowBase ∧ b.AtDepth s' := by
  cases e with
  | resume => cases hs
  | exec ch =>
    simp only [Body.machine] at hstep
    split at hstep
    case isFalse => cases hstep
    case isTrue hrun =>
      have hexec : b.exec ch s.frame ≠ .error .belowBase ∧
          ∀ s', b.exec ch s.frame = .ok s' → b.AtDepth s' := by
        by_cases hip : s.frame.ip < b.chunk.code.length
        · obtain ⟨op, hc⟩ := Body.checked_of_depthAt hv hip (ha hrun hip)
          exact exec_atDepth hc (hs op hc.fetch)
        · have hn := List.getElem?_eq_none (Nat.le_of_not_lt hip)
          simp [Body.exec, hn]
      split at hstep
      next x hx =>
        cases hstep
        refine ⟨fun h => hexec.1 (by cases h; exact hx), fun h => nomatch h⟩
      next a₁ ha₁ =>
        cases hstep
        exact ⟨nofun, hexec.2 _ ha₁⟩

/-- In a run of a body of a verified program from its first instruction with an empty operand
area, if no suspended frame is resumed and no class with static methods is built, nothing is
popped or peeked below the operand base, and each instruction is reached at the depth the
verifier computed for it. -/
theorem verified_stack_safety (c : Chunk) (b : Body) (f : Frame) (es : List Event)
    (hv : c.verify = .ok ()) (hb : Body.In c b) (hip : f.ip = 0) (hd : f.depth = 0)
      (hs : b.machine.Along b.Accounted ⟨f, .running⟩ es)
    (hrun : b.machine.run ⟨f, .running⟩ es = some (os, s)) :
    (∀ o ∈ os, o ≠ some .belowBase) ∧ b.AtDepth s := by
  have hc := (hb.verified hv).1
  refine b.machine.run_along (fun _ _ _ _ => step_atDepth hc) (fun _ hlen => ?_) hs hrun
  rw [hip, hd]
  exact Chunk.depthAt_zero hc (Nat.zero_lt_of_lt hlen)

/-- `NIL; NIL; CALL 1; JUMP_IF_FALSE 9; TRUE; RETURN; NIL; RETURN`. -/
def branching : Chunk :=
  { Chunk.new with code := [1, 1, 44, 1, 38, 2, 0, 2, 47, 1, 47] }

/-- The call takes its argument and its callee, the branch takes the result, and the code after
it runs at the verified depths. -/
theorem verified_stack_safety_return :
    (∀ o ∈ List.replicate 5 (none : Option Fault), o ≠ some .belowBase) ∧
      Body.AtDepth ⟨branching, []⟩ ⟨⟨10, 0, [], 0, false, 1⟩, .running⟩ :=
  verified_stack_safety branching _ ⟨0, 0, [], 0, false, 0⟩
    (List.replicate 5 (.exec ⟨true, 0, none⟩)) rfl .root rfl rfl
    (by decide) rfl

/-- `CLASS 0; RETURN`, where class 0 has one static method. -/
def staticClass : Chunk :=
  { Chunk.new with
    code := [64, 0, 0, 47]
    classProtos := [⟨⟨"C", false, .empty⟩, [], [], [], [], ["make"], false⟩] }

/-- `NIL; YIELD; POP; POP; NIL; RETURN`. -/
def yielder : Chunk := { Chunk.new with code := [1, 72, 4, 4, 1, 47] }

/-- Both are verified; the first pops below its operand base as it builds the class, the
second after it is resumed. -/
theorem verified_code_pops_below_base :
    staticClass.verify = .ok () ∧
      (Body.machine ⟨staticClass, []⟩).run ⟨⟨0, 0, [], 0, false, 0⟩, .running⟩
        [.exec ⟨false, 0, none⟩] = some ([some .belowBase], ⟨⟨0, 0, [], 0, false, 0⟩, .ended⟩) ∧
      yielder.verify = .ok () ∧
      (Body.machine ⟨yielder, []⟩).run ⟨⟨0, 0, [], 0, false, 0⟩, .running⟩
        [.exec ⟨false, 0, none⟩, .exec ⟨false, 0, none⟩, .resume, .exec ⟨false, 0, none⟩,
          .exec ⟨false, 0, none⟩] =
        some ([none, none, none, none, some .belowBase], ⟨⟨3, 0, [], 0, false, 0⟩, .ended⟩) :=
  ⟨rfl, rfl, rfl, rfl⟩

end AScript.Bytecode
