import AScript.Compile.Code

namespace AScript.Compile

open AScript.Lib AScript.Bytecode

abbrev Points := Nat → Nat → Prop

def Points.add (points : Points) (t d : Nat) : Points :=
  fun t' d' => points t' d' ∨ (t' = t ∧ d' = d)

structure Flows (c : Chunk) (i : Instr) (eff : Effect) (targets : List Nat) : Prop where
  effect : c.opStackPopsPushes i.operandAt i.op = eff
  operands : ∀ is, (∀ t ∈ targets, t ≤ c.code.length ∧ c.isBoundary is t = true) →
    c.checkOperands is 0 i = .ok ()
  successors : ∀ is, (∀ t ∈ targets, (Chunk.resolve is t).isSome) →
    c.successors is i = .ok (targets.filterMap (Chunk.resolve is))
  falls : Chunk.isUnconditionalTerminator i.op = true ∨ Chunk.nextOffset i ∈ targets

def Sound (c : Chunk) (points : Points) (i : Instr) (d : Nat) : Prop :=
  ∃ (eff : Effect) (targets : List Nat), Flows c i eff targets ∧ eff.pops ≤ d ∧
    ∀ t ∈ targets, points t (d - eff.pops + eff.pushes)

inductive Run (c : Chunk) : Nat → Nat → List (Instr × Nat) → Prop
  | nil (p : Nat) : Run c p p []
  | cons {op : Op} {p m q d : Nat} {is : List (Instr × Nat)} (ho : OpAt c op p m)
      (hb : op ≠ .«break») (hr : Run c m q is) : Run c p q ((⟨p, op, p + 1⟩, d) :: is)

def Inside (is : List (Instr × Nat)) (q : Nat) (land : Option Nat) (exits : Points) : Points :=
  fun t d => (∃ x ∈ is, x.1.off = t ∧ x.2 = d) ∨ (t = q ∧ land = some d) ∨ exits t d

def Spans (c : Chunk) (p d q : Nat) (land : Option Nat) (exits : Points) : Prop :=
  ∃ is, Run c p q is ∧ is.head?.elim (land = some d) (fun x => x.2 = d) ∧
    ∀ x ∈ is, Sound c (Inside is q land exits) x.1 x.2

variable {c : Chunk} {p q m d d' : Nat} {land : Option Nat} {exits exits' : Points}
  {is is' : List (Instr × Nat)}

theorem Sound.mono {points points' : Points} {i : Instr} (h : Sound c points i d)
    (hi : ∀ t k, points t k → points' t k) : Sound c points' i d := by
  obtain ⟨eff, targets, hf, hp, ht⟩ := h
  exact ⟨eff, targets, hf, hp, fun t htm => hi _ _ (ht t htm)⟩

namespace Run

theorem append (h : Run c p m is) (h' : Run c m q is') : Run c p q (is ++ is') := by
  induction h with
  | nil => exact h'
  | cons ho hb _ ih => exact .cons ho hb (ih h')

theorem le (h : Run c p q is) : p ≤ q := by
  induction h with
  | nil => exact Nat.le_refl _
  | cons ho _ _ ih =>
    have := ho.2
    omega

theorem off_lt (h : Run c p q is) : ∀ x ∈ is, p ≤ x.1.off ∧ x.1.off < q := by
  induction h with
  | nil => exact fun x hx => absurd hx List.not_mem_nil
  | @cons op p m q d is ho _ hr ih =>
    have hw := ho.2
    have hle := hr.le
    refine List.forall_mem_cons.mpr ⟨⟨Nat.le_refl p, show p < q by omega⟩, fun x hx => ?_⟩
    have := ih x hx
    omega

theorem unique (h : Run c p q is) {x y : Instr × Nat} (hx : x ∈ is) (hy : y ∈ is)
    (he : x.1.off = y.1.off) : x = y := by
  induction h with
  | nil => cases hx
  | @cons op p m q d is ho _ hr ih =>
    have hw := ho.2
    rcases List.mem_cons.mp hx with rfl | hx <;> rcases List.mem_cons.mp hy with rfl | hy
    · rfl
    · have hlt := (hr.off_lt y hy).1
      have he : p = y.1.off := he
      omega
    · have hlt := (hr.off_lt x hx).1
      have he : x.1.off = p := he
      omega
    · exact ih hx hy

theorem decodeFrom (h : Run c p q is) (hq : q = c.code.length) {k : Nat} (hk : q ≤ p + k) :
    c.decodeFrom k p = .ok (is.map Prod.fst) := by
  induction h generalizing k with
  | nil =>
    cases k with
    | zero => rfl
    | succ k =>
      rw [Chunk.decodeFrom, List.getElem?_eq_none (by omega)]
      rfl
  | @cons op p m q d is ho hb hr ih =>
    obtain ⟨hop, hm⟩ := ho
    have hle := hr.le
    cases k with
    | zero => omega
    | succ k =>
      obtain ⟨byte, hbyte, hdec⟩ := Option.bind_eq_some_iff.mp hop
      rw [Chunk.decodeFrom, hbyte]
      simp only [hdec, if_neg hb]
      rw [if_neg (by omega), ← hm, ih hq (by omega)]
      rfl

end Run

namespace Spans

theorem inside (hr : Run c p q is) (hd : is.head?.elim (land = some d) (fun x => x.2 = d)) :
    Inside is q land exits p d := by
  cases hr with
  | nil => exact .inr (.inl ⟨rfl, hd⟩)
  | cons => exact .inl ⟨_, .head _, rfl, hd⟩

theorem nil (p d : Nat) : Spans c p d p (some d) exits :=
  ⟨[], .nil p, rfl, fun _ hx => absurd hx List.not_mem_nil⟩

theorem seq (h : Spans c p d m (some d') exits) (h' : Spans c m d' q land exits) :
    Spans c p d q land exits := by
  obtain ⟨is, hr, hd, hs⟩ := h
  obtain ⟨is', hr', hd', hs'⟩ := h'
  have hright : ∀ t k, Inside is' q land exits t k → Inside (is ++ is') q land exits t k := by
    intro t k ht
    exact ht.imp_left fun hx => hx.imp fun y hy => ⟨List.mem_append_right _ hy.1, hy.2⟩
  refine ⟨is ++ is', hr.append hr', ?_, fun x hx => ?_⟩
  · cases hr with
    | cons => exact hd
    | nil =>
      cases hd
      exact hd'
  · rcases List.mem_append.mp hx with hx | hx
    · refine (hs x hx).mono fun t k ht => ?_
      rcases ht with ⟨y, hy, he⟩ | ⟨rfl, he⟩ | he
      · exact .inl ⟨y, List.mem_append_left _ hy, he⟩
      · cases he
        exact hright _ _ (inside hr' hd')
      · exact .inr (.inr he)
    · exact (hs' x hx).mono hright

theorem toEnd (h : Spans c p d q (some d') (exits.add q d')) : Spans c p d q (some d') exits := by
  obtain ⟨is, hr, hd, hs⟩ := h
  refine ⟨is, hr, hd, fun x hx => (hs x hx).mono fun t k ht => ?_⟩
  rcases ht with hy | he | he | ⟨rfl, rfl⟩
  · exact .inl hy
  · exact .inr (.inl he)
  · exact .inr (.inr he)
  · exact .inr (.inl ⟨rfl, rfl⟩)

theorem toStart (h : Spans c p d q land (exits.add p d)) : Spans c p d q land exits := by
  obtain ⟨is, hr, hd, hs⟩ := h
  refine ⟨is, hr, hd, fun x hx => (hs x hx).mono fun t k ht => ?_⟩
  rcases ht with hy | he | he | ⟨rfl, rfl⟩
  · exact .inl hy
  · exact .inr (.inl he)
  · exact .inr (.inr he)
  · exact inside hr hd

theorem instr {op : Op} {eff : Effect} {targets : List Nat} (ho : OpAt c op p q)
    (hb : op ≠ .«break») (hf : Flows c ⟨p, op, p + 1⟩ eff targets) (hp : eff.pops ≤ d)
    (ht : ∀ t ∈ targets, (t = q ∧ land = some (d - eff.pops + eff.pushes)) ∨
      exits t (d - eff.pops + eff.pushes)) : Spans c p d q land exits :=
  ⟨[(⟨p, op, p + 1⟩, d)], .cons ho hb (.nil q), rfl,
    List.forall_mem_singleton.mpr ⟨eff, targets, hf, hp, fun t htm => .inr (ht t htm)⟩⟩

end Spans

theorem resolve_of_mem {is : List Instr} {i : Instr} (hi : i ∈ is) :
    ∃ j, Chunk.resolve is i.off = some j := by
  obtain ⟨j, rfl⟩ := List.get_of_mem hi
  refine Option.isSome_iff_exists.mp (List.find?_isSome.mpr ⟨j, List.mem_finRange j, ?_⟩)
  exact decide_eq_true rfl

structure Whole (c : Chunk) (is : List (Instr × Nat)) : Prop where
  run : Run c 0 c.code.length is
  start : is.head?.elim False fun x => x.2 = 0
  sound : ∀ x ∈ is, Sound c (fun t d => ∃ y ∈ is, y.1.off = t ∧ y.2 = d) x.1 x.2

namespace Whole

theorem of_spans (h : Spans c 0 0 c.code.length none fun _ _ => False) : ∃ is, Whole c is := by
  obtain ⟨is, hr, hd, hs⟩ := h
  refine ⟨is, hr, ?_, fun x hx => (hs x hx).mono fun t k ht => ?_⟩
  · cases is with
    | nil => cases hd
    | cons => exact hd
  · rcases ht with hy | ⟨-, he⟩ | he
    · exact hy
    · cases he
    · exact he.elim

theorem instrs (h : Whole c is) : c.instrs = .ok (is.map Prod.fst) :=
  h.run.decodeFrom rfl (Nat.le_add_left ..)

theorem resolved (h : Whole c is) {y : Instr × Nat} (hy : y ∈ is) :
    ∃ j, Chunk.resolve (is.map Prod.fst) y.1.off = some j ∧
      ((is.map Prod.fst).get j, y.2) ∈ is := by
  obtain ⟨j, hj⟩ := resolve_of_mem (List.mem_map_of_mem hy)
  obtain ⟨z, hz, he⟩ := List.mem_map.mp (List.get_mem (is.map Prod.fst) j)
  have hoff : z.1.off = y.1.off := by rw [he, Chunk.resolve_off hj]
  obtain rfl := h.run.unique hz hy hoff
  exact ⟨j, hj, by rw [← he]; exact hz⟩

theorem isBoundary {y : Instr × Nat} (hy : y ∈ is) :
    c.isBoundary (is.map Prod.fst) y.1.off = true := by
  rw [Chunk.isBoundary, Bool.or_eq_true, List.any_eq_true]
  exact .inr ⟨y.1, List.mem_map_of_mem hy, decide_eq_true rfl⟩

theorem checkOperands (h : Whole c is) {x : Instr × Nat} (hx : x ∈ is) :
    c.checkOperands (is.map Prod.fst) 0 x.1 = .ok () := by
  obtain ⟨eff, targets, hf, -, ht⟩ := h.sound x hx
  refine hf.operands _ fun t htm => ?_
  obtain ⟨y, hy, rfl, -⟩ := ht t htm
  exact ⟨Nat.le_of_lt (h.run.off_lt y hy).2, isBoundary hy⟩

theorem closed (h : Whole c is) :
    (c.flow (is.map Prod.fst)).Closed fun j d => ((is.map Prod.fst).get j, d) ∈ is where
  agree j d d' hd hd' := congrArg Prod.snd (h.run.unique hd hd' rfl)
  visit j d hd := by
    obtain ⟨eff, targets, hf, hp, ht⟩ := h.sound _ hd
    simp only at hf hp ht
    have hres : ∀ t ∈ targets, (Chunk.resolve (is.map Prod.fst) t).isSome := by
      intro t htm
      obtain ⟨y, hy, rfl, -⟩ := ht t htm
      obtain ⟨j, hj, -⟩ := h.resolved hy
      exact Option.isSome_of_eq_some hj
    have hv : c.visit (is.map Prod.fst) j d = .ok ((targets.filterMap
        (Chunk.resolve (is.map Prod.fst))).map fun t => (t, d - eff.pops + eff.pushes)) := by
      simp only [Chunk.visit, hf.effect]
      rw [if_neg (Nat.not_lt.mpr hp), hf.successors _ hres]
      rfl
    refine ⟨_, hv, fun s hsm => ?_⟩
    obtain ⟨k, hk, rfl⟩ := List.mem_map.mp hsm
    obtain ⟨t, htm, hk⟩ := List.mem_filterMap.mp hk
    obtain ⟨y, hy, rfl, he⟩ := ht t htm
    obtain ⟨j', hj', hmem⟩ := h.resolved hy
    rw [hj'] at hk
    cases hk
    rw [← he]
    exact hmem

theorem depths (h : Whole c is) (hl : 0 < (is.map Prod.fst).length) :
    ∃ e, c.depths (is.map Prod.fst) hl = .ok e ∧
      ∀ j d, e j = some d → ((is.map Prod.fst).get j, d) ∈ is := by
  refine h.closed.walk (Option.some_get _).symm (List.forall_mem_singleton.mpr ?_)
    fun _ _ he => by cases he
  cases is with
  | nil => exact absurd hl (Nat.lt_irrefl 0)
  | cons x is =>
    have hx : (x.1, 0) = x := Prod.ext rfl (Eq.symm h.start)
    exact hx ▸ List.mem_cons_self

theorem verifyStackBalance (h : Whole c is) :
    c.verifyStackBalance (is.map Prod.fst) = .ok () := by
  rw [Chunk.verifyStackBalance]
  split
  next hl =>
    obtain ⟨e, he, hm⟩ := h.depths hl
    rw [he]
    refine if_neg fun hlast => ?_
    simp only [Bool.and_eq_true, Bool.not_eq_true', decide_eq_true_eq] at hlast
    obtain ⟨⟨hsome, hterm⟩, hnext⟩ := hlast
    obtain ⟨d, hd⟩ := Option.isSome_iff_exists.mp hsome
    obtain ⟨eff, targets, hf, -, ht⟩ := h.sound _ (hm _ d hd)
    have hfalls := hf.falls.resolve_left (by rw [hterm]; exact Bool.false_ne_true)
    obtain ⟨y, hy, hoff, -⟩ := ht _ hfalls
    have hlt := (h.run.off_lt y hy).2
    rw [hoff, hnext] at hlt
    exact Nat.lt_irrefl _ hlt
  · rfl

theorem verifyChunk (h : Whole c is) : c.verifyChunk 0 = .ok () := by
  rw [Chunk.verifyChunk]
  split
  · rfl
  · rw [h.instrs]
    refine bind_ok.mpr ⟨_, rfl, bind_ok.mpr ⟨(), forM_of_ok fun i hi => ?_, h.verifyStackBalance⟩⟩
    obtain ⟨x, hx, rfl⟩ := List.mem_map.mp hi
    exact h.checkOperands hx

end Whole
end AScript.Compile
