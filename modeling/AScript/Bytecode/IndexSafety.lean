import AScript.Bytecode.Activations
import AScript.Bytecode.StackSafety

namespace AScript.Bytecode

open AScript.Lib

namespace Chunk

def isCellSlot (c : Chunk) (slot : Nat) : Bool := c.cellSlots.any (·.toNat = slot)

def canCapture (c : Chunk) : UpvalueDescriptor → Bool
  | .parentLocal slot false => c.isCellSlot slot.toNat
  | .parentLocal slot true => slot.toNat < c.slotCount.toNat
  | .parentUpvalue i => i.toNat < c.upvalues.length

def canBind (c : Chunk) (n : ImportName) : Bool :=
  n.isGlobal || (if n.isCell then c.isCellSlot n.slot.toNat else n.slot.toNat < c.slotCount.toNat)

def linked (c : Chunk) (operandAt : Nat) : Op → Bool
  | .getLocalCell | .setLocalCell | .freshCell => c.isCellSlot (c.readU16 operandAt)
  | .closure =>
    (c.protos[c.readU16 operandAt]?).all fun p => p.chunk.upvalues.all c.canCapture
  | .«import» =>
    (c.imports[c.readU16 operandAt]?).all fun
      | .named _ names => names.all c.canBind
      | .namespace _ n => c.canBind n
  | _ => true

end Chunk

def Body.roomFor (b : Body) (m : Entry) : Bool :=
  b.chunk.cellSlots.all (·.toNat < b.chunk.slotCount.toNat) &&
    match m with
    | .bare => true
    | .bound => b.params.length ≤ b.chunk.slotCount.toNat
    | .method => b.params.length < b.chunk.slotCount.toNat

/-- A step executes an instruction that finds its operands above the base of its frame and is
linked, or calls into a window with room. -/
def Program.Linked (s : Program) : Program.Event → Prop
  | .exec i ch => ∀ p ∈ s.activations[i]?, p.1.StaysAbove ch p.2.frame ∧
      ∀ op ∈ (p.1.chunk.code[p.2.frame.ip]?).bind Op.fromU8,
        p.1.chunk.linked (p.2.frame.ip + 1) op
  | .resume _ => True
  | .call k m => ∀ c ∈ s.closures[k]?, c.body.roomFor m

instance : ∀ s e, Decidable (Program.Linked s e)
  | s, .exec i ch => inferInstanceAs (Decidable (∀ p ∈ s.activations[i]?,
      p.1.StaysAbove ch p.2.frame ∧ ∀ op ∈ (p.1.chunk.code[p.2.frame.ip]?).bind Op.fromU8,
        p.1.chunk.linked (p.2.frame.ip + 1) op = true))
  | _, .resume _ => inferInstanceAs (Decidable True)
  | s, .call k m => inferInstanceAs (Decidable (∀ c ∈ s.closures[k]?, c.body.roomFor m = true))

def Act.Safe (b : Body) (f : Frame) : Act → Prop
  | .index t i => i < b.tableLen t
  | .«local» s => s < f.slots
  | .cell s => f.hasCell s
  | .upvalue i => i < f.upvalues
  | .aware s => f.hasCell s ∨ s < f.slots
  | _ => True

def AllSafe (b : Body) (f : Frame) (as : List Act) : Prop := ∀ a ∈ as, a.Safe b f

structure Frame.Alike (f f' : Frame) : Prop where
  ip : f'.ip = f.ip
  slots : f'.slots = f.slots
  cells : f'.cells = f.cells
  upvalues : f'.upvalues = f.upvalues
  isMethod : f'.isMethod = f.isMethod

variable {b : Body} {f f' : Frame} {a : Act}

theorem Frame.Alike.refl (f : Frame) : f.Alike f := ⟨rfl, rfl, rfl, rfl, rfl⟩

theorem Frame.Alike.trans {f₁ f₂ f₃ : Frame} (h : f₁.Alike f₂) (h' : f₂.Alike f₃) :
    f₁.Alike f₃ :=
  ⟨h'.ip.trans h.ip, h'.slots.trans h.slots, h'.cells.trans h.cells, h'.upvalues.trans h.upvalues,
    h'.isMethod.trans h.isMethod⟩

theorem Act.Safe.alike (h : f.Alike f') (ha : a.Safe b f) : a.Safe b f' := by
  cases a <;> simp only [Act.Safe, Frame.hasCell] at ha ⊢
  all_goals
    first
    | rw [h.slots, h.cells]
      exact ha
    | rw [h.slots]
      exact ha
    | rw [h.cells]
      exact ha
    | rw [h.upvalues]
      exact ha
    | exact ha

theorem act_alike (h : f.act b a = .ok f') : f.Alike f' := by
  cases a <;> simp only [Frame.act, Frame.require] at h
  case push =>
    cases h
    exact ⟨rfl, rfl, rfl, rfl, rfl⟩
  all_goals
    split at h
    all_goals
      cases h
      try exact ⟨rfl, rfl, rfl, rfl, rfl⟩

theorem act_safe (ha : a.Safe b f) (h : f.act b a = .error x) : x = .belowBase := by
  cases a <;> simp only [Frame.act, Frame.require] at h
  case pop | peek =>
    split at h
    all_goals
      cases h
      try rfl
  case push => cases h
  all_goals
    simp only [Act.Safe] at ha
    simp [ha] at h

theorem perform_alike (h : f.perform b as = .ok f') : f.Alike f' := by
  induction as generalizing f with
  | nil =>
    cases h
    exact .refl _
  | cons a as ih =>
    obtain ⟨f₁, h₁, h⟩ := bind_ok.mp h
    exact (act_alike h₁).trans (ih h)

theorem perform_safe (hs : AllSafe b f as) (h : f.perform b as = .error x) :
    x = .belowBase := by
  induction as generalizing f with
  | nil => cases h
  | cons a as ih =>
    obtain h | ⟨f₁, h₁, h⟩ := bind_error.mp h
    · exact act_safe (hs a List.mem_cons_self) h
    · exact ih (fun a' ha' => (hs a' (List.mem_cons_of_mem _ ha')).alike (act_alike h₁)) h

structure Frame.Fits (f : Frame) (b : Body) : Prop where
  slots : f.slots = b.chunk.slotCount.toNat
  cells : ∀ s, b.chunk.isCellSlot s → f.hasCell s
  upvalues : f.upvalues = b.chunk.upvalues.length
  receiver : f.isMethod → 0 < f.slots

theorem Frame.Fits.alike (hf : f.Fits b) (h : f.Alike f') : f'.Fits b where
  slots := h.slots.trans hf.slots
  cells s hs := by
    rw [Frame.hasCell, h.cells]
    exact hf.cells s hs
  upvalues := h.upvalues.trans hf.upvalues
  receiver hm := by
    rw [h.slots]
    exact hf.receiver (h.isMethod ▸ hm)

theorem capture_safe (hf : f.Fits b) (h : b.chunk.canCapture u) : (capture u).Safe b f := by
  unfold Chunk.canCapture at h
  split at h
  · exact hf.cells _ h
  · simpa [capture, Act.Safe, hf.slots] using h
  · simpa [capture, Act.Safe, hf.upvalues] using h

theorem bindImport_safe (hf : f.Fits b) (h : b.chunk.canBind n) (ha : a ∈ bindImport n) :
    a.Safe b f := by
  unfold bindImport at ha
  unfold Chunk.canBind at h
  cases hg : n.isGlobal <;> cases hc : n.isCell <;> simp [hg, hc] at h ha
  · subst ha
    simpa [Act.Safe, hf.slots] using h
  · subst ha
    exact hf.cells _ h

theorem Chunk.inRange_ok : inRange off kind i n = .ok () ↔ i < n := by
  unfold inRange
  split <;> simp [*]

theorem Chunk.checkNameConst_ok {c : Chunk} (h : c.checkNameConst off i = .ok ()) :
    i < c.consts.length := by
  obtain ⟨_, hc, -⟩ := bind_ok.mp h
  exact inRange_ok.mp hc

theorem Chunk.checkInterface_ok {c : Chunk} (h : c.checkInterface off i = .ok ()) :
    i < c.interfaceProtos.length := by
  unfold checkInterface at h
  split at h
  · cases h
  next p hp => exact (List.getElem?_eq_some_iff.mp hp).1

@[simp] theorem safe_pop : Act.pop.Safe b f := trivial

@[simp] theorem safe_peek : (Act.peek back).Safe b f := trivial

@[simp] theorem safe_push : Act.push.Safe b f := trivial

@[simp] theorem safe_index : (Act.index t i).Safe b f ↔ i < b.tableLen t := .rfl

@[simp] theorem safe_local : (Act.«local» s).Safe b f ↔ s < f.slots := .rfl

@[simp] theorem safe_cell : (Act.cell s).Safe b f ↔ f.hasCell s := .rfl

@[simp] theorem safe_upvalue : (Act.upvalue i).Safe b f ↔ i < f.upvalues := .rfl

@[simp] theorem safe_aware : (Act.aware s).Safe b f ↔ f.hasCell s ∨ s < f.slots := .rfl

@[simp] theorem allSafe_nil : AllSafe b f [] := List.forall_mem_nil _

@[simp] theorem allSafe_cons : AllSafe b f (a :: as) ↔ a.Safe b f ∧ AllSafe b f as :=
  List.forall_mem_cons

@[simp] theorem allSafe_append :
    AllSafe b f (as ++ as') ↔ AllSafe b f as ∧ AllSafe b f as' :=
  List.forall_mem_append

@[simp] theorem allSafe_pops (n : Nat) : AllSafe b f (pops n) := fun a ha => by
  rw [List.eq_of_mem_replicate ha]
  trivial

@[simp] theorem allSafe_pushes (n : Nat) : AllSafe b f (pushes n) := fun a ha => by
  rw [List.eq_of_mem_replicate ha]
  trivial

@[simp] theorem allSafe_buildClass : AllSafe b f (buildClass p) := by
  simp [buildClass]

theorem allSafe_bindImports (hf : f.Fits b)
    (h : (match d with
      | .named _ names => names.all b.chunk.canBind
      | .namespace _ n => b.chunk.canBind n) = true) : AllSafe b f (bindImports d) := by
  cases d with
  | named s names =>
    intro a ha
    obtain ⟨n, hn, ha⟩ := List.mem_flatMap.mp ha
    exact bindImport_safe hf (List.all_eq_true.mp h n hn) ha
  | «namespace» s n => exact fun a => bindImport_safe hf h

theorem arm_safe (hf : f.Fits b) (hop : op = .getSuper → f.isMethod)
    (hc : b.chunk.checkOperands is b.params.length ⟨off, op, operandAt⟩ = .ok ())
    (hl : b.chunk.linked operandAt op) : AllSafe b f (b.arm operandAt k op) := by
  cases op <;> simp only [Chunk.checkOperands, Chunk.checkConst, Chunk.inRange_ok] at hc
  all_goals try replace hc := Chunk.checkNameConst_ok hc
  all_goals simp [Body.arm, Body.tableLen, hf.slots, hf.upvalues, hc]
  case checkParam => split <;> simp
  case closure =>
    simp only [Chunk.linked, List.getElem?_eq_getElem hc, Option.all_some] at hl
    intro a ha
    obtain ⟨u, hu, rfl⟩ := List.mem_map.mp ha
    exact capture_safe hf (List.all_eq_true.mp hl u hu)
  case defineInterface => exact Chunk.checkInterface_ok hc
  case getSuper => exact .inr (hf.slots ▸ hf.receiver (hop rfl))
  case «import» =>
    simp only [Chunk.linked, List.getElem?_eq_getElem hc, Option.all_some] at hl
    exact allSafe_bindImports hf hl
  case getLocalCell | setLocalCell | freshCell => exact hf.cells _ hl
  case deferPushMethod =>
    obtain ⟨_, hn, -⟩ := bind_ok.mp hc
    exact Chunk.checkNameConst_ok hn

section Boundary

variable {c : Chunk} {is : List Instr}

def Chunk.Boundary (c : Chunk) (ip : Nat) : Prop :=
  ip = c.code.length ∨ ∃ is, c.instrs = .ok is ∧ ∃ i ∈ is, i.off = ip

theorem Chunk.decodeFrom_start (h : c.decodeFrom k off = .ok is)
    (hoff : off ≤ c.code.length) (hk : c.code.length ≤ off + k) :
    off = c.code.length ∨ ∃ i ∈ is, i.off = off := by
  cases k with
  | zero => exact .inl (Nat.le_antisymm hoff hk)
  | succ k =>
    obtain ⟨hn, -⟩ | ⟨op, rest, -, -, -, -, rfl⟩ := decodeFrom_succ h
    · exact .inl (Nat.le_antisymm hoff (List.getElem?_eq_none_iff.mp hn))
    · exact .inr ⟨_, List.mem_cons_self, rfl⟩

theorem Chunk.decodeFrom_next (h : c.decodeFrom k off = .ok is) (hk : c.code.length ≤ off + k)
    (hi : i ∈ is) : nextOffset i = c.code.length ∨ ∃ j ∈ is, j.off = nextOffset i := by
  induction k generalizing off is with
  | zero =>
    cases h
    cases hi
  | succ k ih =>
    obtain ⟨-, rfl⟩ | ⟨op, rest, -, -, hw, hr, rfl⟩ := decodeFrom_succ h
    · cases hi
    · cases hi with
      | head =>
        exact (decodeFrom_start hr hw (by omega)).imp_right fun ⟨j, hj, he⟩ =>
          ⟨j, List.mem_cons_of_mem _ hj, he⟩
      | tail _ hi =>
        exact (ih hr (by omega) hi).imp_right fun ⟨j, hj, he⟩ =>
          ⟨j, List.mem_cons_of_mem _ hj, he⟩

theorem Chunk.boundary_next (h : c.instrs = .ok is) (hi : i ∈ is) : c.Boundary (nextOffset i) :=
  (decodeFrom_next h (by omega) hi).imp_right fun hj => ⟨is, h, hj⟩

theorem Chunk.boundary_jump (h : c.instrs = .ok is) (hc : c.checkJump is off operandAt = .ok ()) :
    c.Boundary (c.jumpTarget operandAt) := by
  simp only [checkJump] at hc
  split at hc
  · cases hc
  next hr =>
    split at hc
    next hb =>
      rw [jumpTarget, if_neg fun hn => hr (.inl hn)]
      simp only [isBoundary, Bool.or_eq_true, decide_eq_true_eq, List.any_eq_true] at hb
      exact hb.imp_right fun hj => ⟨is, h, hj⟩
    · cases hc

theorem Chunk.boundary_zero (hv : c.verifyChunk n = .ok ()) : c.Boundary 0 := by
  by_cases hne : 0 < c.code.length
  · obtain ⟨is, hi, -, -⟩ := verifyChunk_ok hv hne
    exact (decodeFrom_start hi (Nat.zero_le _) (by omega)).imp_right fun hj => ⟨is, hi, hj⟩
  · exact .inl (by omega)

theorem transfer_boundary (h : b.chunk.instrs = .ok is) (hi : i ∈ is)
    (hc : b.chunk.checkOperands is n i = .ok ()) (ch : Choice) :
    b.chunk.Boundary (b.transfer i.operandAt ch i.op (Chunk.nextOffset i)).1 := by
  have hnext := Chunk.boundary_next h hi
  generalize hop : i.op = op
  cases op <;> simp only [Chunk.checkOperands, hop] at hc <;> simp only [Body.transfer]
  case jump | loop => exact Chunk.boundary_jump h hc
  case jumpIfFalse | jumpIfTrue | jumpIfNotNil | jumpIfArgSupplied =>
    split
    · exact Chunk.boundary_jump h hc
    · exact hnext
  all_goals exact hnext

end Boundary

/-- Faults of an access to a table, a slot, a cell or an upvalue. -/
def Fault.isIndex : Fault → Bool
  | .table _ | .slot | .cell | .upvalue => true
  | .belowBase | .code => false

def Fault.Contained (x : Fault) : Prop := x.isIndex = false ∧ x ≠ .belowBase

theorem executed_safe (ch : Choice) (k : Nat) (hf : f.Fits b)
    (hc : b.chunk.checkOperands is b.params.length ⟨off, op, operandAt⟩ = .ok ())
    (hl : b.chunk.linked operandAt op) :
    match f.raises ch op with
    | some n => AllSafe b f ((b.arm operandAt k op).take n)
    | none => AllSafe b f (b.arm operandAt k op) := by
  by_cases hs : op = .getSuper ∧ f.isMethod = false
  · obtain ⟨rfl, hm⟩ := hs
    have hr : f.raises ch .getSuper = some 1 := by simp [Frame.raises, hm]
    rw [hr]
    simpa [Body.arm, Body.tableLen] using Chunk.checkNameConst_ok hc
  · have ha := arm_safe (k := k) hf (fun h => by simpa [h] using hs) hc hl
    split
    · exact fun a hm => ha a (List.mem_of_mem_take hm)
    · exact ha

theorem exec_safe (ch : Choice) (hv : b.chunk.verifyChunk b.params.length = .ok ()) (hf : f.Fits b)
    (hb : b.chunk.Boundary f.ip)
    (hl : ∀ op ∈ (b.chunk.code[f.ip]?).bind Op.fromU8, b.chunk.linked (f.ip + 1) op) :
    (∀ x, b.exec ch f = .error x → x.isIndex = false) ∧
      ∀ a, b.exec ch f = .ok a → a.frame.Fits b ∧ b.chunk.Boundary a.frame.ip := by
  by_cases hip : f.ip < b.chunk.code.length
  case neg =>
    have hn := List.getElem?_eq_none (Nat.le_of_not_lt hip)
    simp [Body.exec, hn, Fault.isIndex]
  case pos =>
    obtain ⟨is, hi, ⟨off, op, operandAt⟩, him, rfl⟩ := hb.resolve_left (Nat.ne_of_lt hip)
    obtain ⟨is', hi', hops, -⟩ := Chunk.verifyChunk_ok hv (Nat.zero_lt_of_lt hip)
    rw [hi] at hi'
    cases hi'
    have hc := hops _ him
    have htr := transfer_boundary hi him hc ch
    obtain ⟨hop, hat⟩ := Chunk.decodeFrom_mem hi him
    simp only at hop hat htr
    subst hat
    have hex := executed_safe ch ch.spread hf hc (hl _ hop)
    simp only [Body.exec, hop]
    obtain hr | ⟨n, hr⟩ := Option.eq_none_or_eq_some (f.raises ch op)
    · simp only [hr] at hex ⊢
      refine ⟨fun x he => ?_, fun a he => ?_⟩
      · obtain he | ⟨_, -, he⟩ := bind_error.mp he
        · rw [perform_safe hex he]
          rfl
        · cases he
      · obtain ⟨f', hf', he⟩ := bind_ok.mp he
        cases he
        have hfit := hf.alike (perform_alike hf')
        exact ⟨⟨hfit.slots, hfit.cells, hfit.upvalues, hfit.receiver⟩, htr⟩
    · simp only [hr] at hex ⊢
      refine ⟨fun x he => ?_, fun a he => ?_⟩
      · obtain he | ⟨_, -, he⟩ := bind_error.mp he
        · rw [perform_safe hex he]
          rfl
        · cases he
      · obtain ⟨f', hf', he⟩ := bind_ok.mp he
        cases he
        have hal := perform_alike hf'
        exact ⟨hf.alike hal, hal.ip ▸ hb⟩

theorem allocCells_ok (h : cellSlots.all (·.toNat < n)) :
    ∃ cells, Frame.allocCells n cellSlots = .ok cells ∧
      ∀ s, cellSlots.any (·.toNat = s) → cells[s]?.getD false = true := by
  unfold Frame.allocCells
  split
  next he =>
    rw [List.isEmpty_iff.mp he]
    exact ⟨[], rfl, fun s hs => by cases hs⟩
  next =>
    refine ⟨_, rfl, fun s hs => ?_⟩
    obtain ⟨slot, hm, hs'⟩ := List.any_eq_true.mp hs
    have hlt : s < n := by simpa [of_decide_eq_true hs'] using List.all_eq_true.mp h slot hm
    simp [hlt, hs]

theorem bind_safe (hf : f.Fits b) (hr : b.roomFor m) :
    AllSafe b f (m.bind b.params.length) := by
  simp only [Body.roomFor, Bool.and_eq_true] at hr
  cases m with
  | bare => exact allSafe_nil
  | bound =>
    intro a ha
    obtain ⟨s, hs, rfl⟩ := List.mem_map.mp ha
    have hp : b.params.length ≤ b.chunk.slotCount.toNat := of_decide_eq_true hr.2
    exact .inr (hf.slots ▸ Nat.lt_of_lt_of_le (List.mem_range.mp hs) hp)
  | method =>
    intro a ha
    obtain ⟨s, hs, rfl⟩ := List.mem_map.mp ha
    have hp : b.params.length < b.chunk.slotCount.toNat := of_decide_eq_true hr.2
    exact .inr (hf.slots ▸ Nat.lt_of_lt_of_le (List.mem_range.mp hs) hp)

theorem bind_aside (ha : a ∈ Entry.bind n m) : a.Aside := by
  cases m with
  | bare => cases ha
  | bound | method =>
    obtain ⟨s, -, rfl⟩ := List.mem_map.mp ha
    exact fun _ => rfl

theorem enter_safe {k : Closure} (hk : k.upvalues = k.body.chunk.upvalues.length)
    (hr : k.body.roomFor m) : ∃ f, k.enter m = .ok f ∧ f.Fits k.body ∧ f.ip = 0 := by
  obtain ⟨cells, hcells, hhas⟩ := allocCells_ok (Bool.and_eq_true_iff.mp hr).1
  let f : Frame := ⟨0, k.body.chunk.slotCount.toNat, cells, k.upvalues, m = .method, 0⟩
  have hfit : f.Fits k.body := ⟨rfl, hhas, hk, fun hm => by
    have hroom := (Bool.and_eq_true_iff.mp hr).2
    rw [of_decide_eq_true hm] at hroom
    exact Nat.zero_lt_of_lt (of_decide_eq_true hroom)⟩
  have henter : k.enter m = f.perform k.body (m.bind k.body.params.length) := by
    rw [Closure.enter, hcells]
    rfl
  rw [henter]
  cases hf : f.perform k.body (m.bind k.body.params.length) with
  | error x =>
    rw [perform_safe (bind_safe hfit hr) hf] at hf
    have hnone := perform_belowBase hf
    rw [← List.append_nil (m.bind _), reach_aside fun a => bind_aside] at hnone
    cases hnone
  | ok f' =>
    have hal := perform_alike hf
    exact ⟨f', rfl, hfit.alike hal, hal.ip⟩

structure Program.LaidOut (c : Chunk) (s : Program) : Prop where
  closures : ∀ k ∈ s.closures, Body.In c k.body ∧ k.upvalues = k.body.chunk.upvalues.length
  activations : ∀ p ∈ s.activations,
    Body.In c p.1 ∧ p.2.frame.Fits p.1 ∧ p.1.chunk.Boundary p.2.frame.ip

theorem Program.mem_made {k : Closure} (h : k ∈ Program.made b ch f) :
    ∃ p ∈ b.chunk.protos, k = ⟨p.body, p.chunk.upvalues.length⟩ := by
  unfold made at h
  split at h
  · obtain ⟨p, hp, rfl⟩ := List.mem_map.mp h
    exact ⟨p, List.mem_of_getElem? (Option.mem_toList.mp hp), rfl⟩
  · cases h

variable {c : Chunk} {s s' : Program}

theorem Program.LaidOut.made (hs : s.LaidOut c) (hb : Body.In c b) {ks : List Closure}
    (hks : ∀ k ∈ ks, ∃ p ∈ b.chunk.protos, k = ⟨p.body, p.chunk.upvalues.length⟩) :
    ∀ k ∈ s.closures ++ ks, Body.In c k.body ∧ k.upvalues = k.body.chunk.upvalues.length := by
  intro k hk
  cases List.mem_append.mp hk with
  | inl hk => exact hs.closures k hk
  | inr hk =>
    obtain ⟨p, hp, rfl⟩ := hks k hk
    exact ⟨.nested hb hp, rfl⟩

theorem Program.LaidOut.set (hs : s.LaidOut c) (hb : Body.In c b) {a : Activation}
    (ha : a.frame.Fits b ∧ b.chunk.Boundary a.frame.ip) :
    ∀ p ∈ s.activations.set i (b, a),
      Body.In c p.1 ∧ p.2.frame.Fits p.1 ∧ p.1.chunk.Boundary p.2.frame.ip := by
  intro p hp
  cases List.mem_or_eq_of_mem_set hp with
  | inl hp => exact hs.activations p hp
  | inr hp =>
    subst hp
    exact ⟨hb, ha⟩

theorem activation_safe {a a' : Activation}
    (hv : b.chunk.verifyChunk b.params.length = .ok ())
    (ha : a.frame.Fits b ∧ b.chunk.Boundary a.frame.ip)
    (hl : ∀ ch, e = .exec ch → b.StaysAbove ch a.frame ∧
      ∀ op ∈ (b.chunk.code[a.frame.ip]?).bind Op.fromU8, b.chunk.linked (a.frame.ip + 1) op)
    (h : b.machine.step a e = some (o, a')) :
    (∀ x ∈ o, x.Contained) ∧ a'.frame.Fits b ∧ b.chunk.Boundary a'.frame.ip := by
  cases e with
  | exec ch =>
    obtain ⟨habove, hlinked⟩ := hl ch rfl
    have hexec := exec_safe ch hv ha.1 ha.2 hlinked
    simp only [Body.machine] at h
    split at h
    · split at h
      next x hx =>
        cases h
        refine ⟨fun y hy => ?_, ha⟩
        cases hy
        refine ⟨hexec.1 x hx, ?_⟩
        rintro rfl
        exact exec_ne_belowBase habove hx
      next a₁ ha₁ =>
        cases h
        exact ⟨fun y hy => (by cases hy), hexec.2 _ ha₁⟩
    · cases h
  | resume =>
    simp only [Body.machine] at h
    split at h
    · cases h
      exact ⟨fun y hy => (by cases hy), ⟨ha.1.slots, ha.1.cells, ha.1.upvalues, ha.1.receiver⟩,
        ha.2⟩
    · cases h

theorem Program.step_safe (hv : c.verify = .ok ()) (hs : s.LaidOut c) (hl : s.Linked e)
    (h : machine.step s e = some (o, s')) : (∀ x ∈ o, x.Contained) ∧ s'.LaidOut c := by
  cases e with
  | exec i ch =>
    obtain ⟨⟨b, a⟩, hp, h⟩ := Option.bind_eq_some_iff.mp h
    obtain ⟨⟨o', a'⟩, hstep, h⟩ := Option.bind_eq_some_iff.mp h
    cases h
    have hmem := hs.activations _ (List.mem_of_getElem? hp)
    obtain ⟨ho, ha'⟩ := activation_safe (hmem.1.verified hv).1 hmem.2
      (fun _ h => by cases h; exact hl _ hp) hstep
    refine ⟨ho, hs.made hmem.1 (fun k hk => ?_), hs.set hmem.1 ha'⟩
    split at hk
    · exact mem_made hk
    · cases hk
  | resume i =>
    obtain ⟨⟨b, a⟩, hp, h⟩ := Option.bind_eq_some_iff.mp h
    obtain ⟨⟨o', a'⟩, hstep, h⟩ := Option.bind_eq_some_iff.mp h
    cases h
    have hmem := hs.activations _ (List.mem_of_getElem? hp)
    obtain ⟨ho, ha'⟩ := activation_safe (hmem.1.verified hv).1 hmem.2
      (fun _ h => by cases h) hstep
    exact ⟨ho, hs.closures, hs.set hmem.1 ha'⟩
  | call k m =>
    obtain ⟨cl, hk, h⟩ := Option.bind_eq_some_iff.mp h
    have hcl := hs.closures cl (List.mem_of_getElem? hk)
    obtain ⟨f, hf, hfit, hip⟩ := enter_safe hcl.2 (hl cl hk)
    rw [hf] at h
    cases h
    refine ⟨fun y hy => (nomatch hy), hs.closures, fun p hp => ?_⟩
    cases List.mem_append.mp hp with
    | inl hp => exact hs.activations p hp
    | inr hp =>
      rw [List.mem_singleton.mp hp]
      exact ⟨hcl.1, hfit, hip ▸ Chunk.boundary_zero (hcl.1.verified hv).1⟩

/-- In a run of a verified chunk that has no upvalues of its own, if every executed instruction
finds its operands, every cell, closure and import instruction is linked and every call finds room
for its cells and arguments, no activation of the program, the nested functions' included, ever
leaves a table, its slots, its cells or its closure's upvalues, and none takes its own locals for
operands. -/
theorem verified_index_safety (c : Chunk) (es : List Program.Event) (hv : c.verify = .ok ())
    (hu : c.upvalues = []) (hl : Program.machine.Along Program.Linked (.start c) es)
    (hrun : Program.machine.run (.start c) es = some (os, s)) :
    ∀ o ∈ os, ∀ x ∈ o, x.isIndex = false ∧ x ≠ .belowBase := by
  have hstart : (Program.start c).LaidOut c := by
    refine ⟨fun k hk => ?_, fun p hp => (nomatch hp)⟩
    rw [List.mem_singleton.mp hk, hu]
    exact ⟨.root, rfl⟩
  exact (Program.machine.run_along (fun _ _ _ _ => Program.step_safe hv) hstart hl hrun).1

/-- `GET_LOCAL_CELL 0; YIELD; RETURN` over the given cell slots. -/
def readCell (cellSlots : List UInt32) : Chunk :=
  { Chunk.new with code := [82, 0, 0, 72, 47], slotCount := 1, cellSlots := cellSlots }

/-- A run that is resumed, and finds what it returns. -/
theorem verified_index_safety_cell :
    (readCell [0]).verify = .ok () ∧
      ∀ o ∈ List.replicate 5 (none : Option Fault), ∀ x ∈ o, x.isIndex = false ∧ x ≠ .belowBase :=
  ⟨rfl, verified_index_safety (readCell [0])
    [.call 0 .bare, .exec 0 ⟨false, 0, none⟩, .exec 0 ⟨false, 0, none⟩, .resume 0,
      .exec 0 ⟨false, 0, none⟩] rfl rfl (by decide) rfl⟩

/-- `CLOSURE 0; RETURN` over a function that captures slot 0 by reference. -/
def captureLocal : Chunk :=
  { Chunk.new with
    code := [48, 0, 0, 47]
    slotCount := 1
    protos := [.mk ⟨0, false, false, false, false, none, [], none, [], none, none⟩
      { Chunk.new with upvalues := [.parentLocal 0 false] } []] }

/-- A cell instruction on a slot without a cell, and a capture by reference of such a slot,
are both verified and both fault. -/
theorem verified_code_leaves_cells :
    (readCell []).verify = .ok () ∧
      (Program.machine.run (.start (readCell [])) [.call 0 .bare, .exec 0 ⟨false, 0, none⟩]).map
        Prod.fst = some [none, some .cell] ∧
      captureLocal.verify = .ok () ∧
      (Program.machine.run (.start captureLocal) [.call 0 .bare, .exec 0 ⟨false, 0, none⟩]).map
        Prod.fst = some [none, some .cell] :=
  ⟨rfl, rfl, rfl, rfl⟩

end AScript.Bytecode
