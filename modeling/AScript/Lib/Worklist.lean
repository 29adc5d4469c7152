import Mathlib.Data.Fintype.Card
import Mathlib.Logic.Function.Basic

universe u v w

namespace AScript.Lib

structure Flow (N : Type u) (D : Type v) (ε : Type w) where
  visit : N → D → Except ε (List (N × D))
  clash : N → D → D → ε

namespace Flow

variable {N : Type u} {D : Type v} {ε : Type w}

def Consistent (F : Flow N D ε) (work : List (N × D)) (e : N → Option D) : Prop :=
  ∀ i d, e i = some d → ∃ succs, F.visit i d = .ok succs ∧
    ∀ s ∈ succs, e s.1 = some s.2 ∨ s ∈ work

def Covered (work : List (N × D)) (e : N → Option D) (s : N × D) : Prop :=
  e s.1 = some s.2 ∨ s ∈ work

theorem Covered.skip (h : Covered ((i, d) :: work) e s) (hi : e i = some d) :
    Covered work e s := by
  cases h with
  | inl h => exact .inl h
  | inr h =>
    cases h with
    | head => exact .inl hi
    | tail _ h => exact .inr h

theorem Consistent.skip {F : Flow N D ε} (h : F.Consistent ((i, d) :: work) e)
    (hi : e i = some d) : F.Consistent work e := by
  intro j d' hj
  obtain ⟨ss, hss, hall⟩ := h j d' hj
  exact ⟨ss, hss, fun s hs => Covered.skip (hall s hs) hi⟩

def unassigned [Fintype N] (e : N → Option D) : Nat :=
  (Finset.univ.filter fun i => e i = none).card

theorem unassigned_le [Fintype N] (e : N → Option D) : unassigned e ≤ Fintype.card N :=
  Finset.card_filter_le _ _

section Walk

variable [DecidableEq N]

theorem Covered.visit {e : N → Option D} (h : Covered ((i, d) :: work) e s) (hi : e i = none) :
    Covered (succs ++ work) (Function.update e i (some d)) s := by
  cases h with
  | inl h =>
    have hne : s.1 ≠ i := fun hs => by rw [hs, hi] at h; cases h
    exact .inl (by rw [Function.update_of_ne hne, h])
  | inr h =>
    cases h with
    | head => exact .inl (Function.update_self ..)
    | tail _ h => exact .inr (List.mem_append_right _ h)

theorem Consistent.visit {F : Flow N D ε} (h : F.Consistent ((i, d) :: work) e)
    (hi : e i = none) (hv : F.visit i d = .ok succs) :
    F.Consistent (succs.reverse ++ work) (Function.update e i (some d)) := by
  intro j d' hj
  by_cases hji : j = i
  · subst hji
    rw [Function.update_self] at hj
    cases hj
    exact ⟨succs, hv, fun s hs => .inr (List.mem_append_left _ (List.mem_reverse.mpr hs))⟩
  · rw [Function.update_of_ne hji] at hj
    obtain ⟨ss, hss, hall⟩ := h j d' hj
    exact ⟨ss, hss, fun s hs => Covered.visit (hall s hs) hi⟩

theorem unassigned_update [Fintype N] {e : N → Option D} (hi : e i = none) (d : D) :
    unassigned (Function.update e i (some d)) < unassigned e := by
  refine Finset.card_lt_card (Finset.ssubset_iff_subset_ne.mpr ⟨fun j hj => ?_, fun h => ?_⟩)
  · simp only [Finset.mem_filter, Finset.mem_univ, true_and] at hj ⊢
    by_cases hji : j = i
    · rw [hji, hi]
    · rwa [Function.update_of_ne hji] at hj
  · have hmem : i ∈ Finset.univ.filter fun i => e i = none := by simp [hi]
    rw [← h] at hmem
    simp at hmem

variable [DecidableEq D]

/-- The worklist loop. The head of the list is the top of the work stack; `none` is reached
only when the fuel runs out. -/
def walk (F : Flow N D ε) : Nat → List (N × D) → (N → Option D) →
    Option (Except ε (N → Option D))
  | 0, _, _ => none
  | _ + 1, [], e => some (.ok e)
  | k + 1, (i, d) :: work, e =>
    match e i with
    | some prev => if prev = d then F.walk k work e else some (.error (F.clash i prev d))
    | none =>
      match F.visit i d with
      | .error x => some (.error x)
      | .ok succs => F.walk k (succs.reverse ++ work) (Function.update e i (some d))

theorem walk_ok {F : Flow N D ε} (hw : F.walk k work e = some (.ok e'))
    (hc : F.Consistent work e) :
    F.Consistent [] e' ∧ ∀ s, Covered work e s → e' s.1 = some s.2 := by
  induction k generalizing work e with
  | zero => cases hw
  | succ k ih =>
    match work with
    | [] =>
      cases hw
      exact ⟨hc, fun s hs => hs.resolve_right List.not_mem_nil⟩
    | (i, d) :: work =>
      rw [walk] at hw
      split at hw
      · rename_i prev hi
        split at hw
        · subst prev
          obtain ⟨hc', hs'⟩ := ih hw (hc.skip hi)
          exact ⟨hc', fun s hs => hs' s (hs.skip hi)⟩
        · cases hw
      · rename_i hi
        split at hw
        · cases hw
        · rename_i succs hv
          obtain ⟨hc', hs'⟩ := ih hw (hc.visit hi hv)
          exact ⟨hc', fun s hs => hs' s (hs.visit hi)⟩

theorem walk_start {F : Flow N D ε}
    (hw : F.walk k [(i, d)] (fun _ => none) = some (.ok e)) :
    e i = some d ∧ ∀ j d' succs, e j = some d' → F.visit j d' = .ok succs →
      ∀ s ∈ succs, e s.1 = some s.2 := by
  obtain ⟨hc, hs⟩ := walk_ok hw (fun _ _ h => nomatch h)
  refine ⟨hs (i, d) (.inr List.mem_cons_self), fun j d' succs hj hv s hsm => ?_⟩
  obtain ⟨ss, hss, hall⟩ := hc j d' hj
  rw [hv] at hss
  cases hss
  exact (hall s hsm).resolve_right List.not_mem_nil

theorem walk_visited {F : Flow N D ε}
    (hw : F.walk k [(i, d)] (fun _ => none) = some (.ok e)) (hj : e j = some d') :
    ∃ succs, F.visit j d' = .ok succs := by
  obtain ⟨hc, -⟩ := walk_ok hw (fun _ _ h => nomatch h)
  obtain ⟨ss, hss, -⟩ := hc j d' hj
  exact ⟨ss, hss⟩

structure Closed (F : Flow N D ε) (M : N → D → Prop) : Prop where
  agree : ∀ i d d', M i d → M i d' → d = d'
  visit : ∀ i d, M i d → ∃ succs, F.visit i d = .ok succs ∧ ∀ s ∈ succs, M s.1 s.2

theorem Closed.walk {F : Flow N D ε} {M : N → D → Prop} (hM : F.Closed M)
    (hw : F.walk k work e = some r) (hwork : ∀ s ∈ work, M s.1 s.2)
    (he : ∀ i d, e i = some d → M i d) : ∃ e', r = .ok e' ∧ ∀ i d, e' i = some d → M i d := by
  induction k generalizing work e with
  | zero => cases hw
  | succ k ih =>
    match work with
    | [] =>
      cases hw
      exact ⟨e, rfl, he⟩
    | (i, d) :: work =>
      obtain ⟨hi, hrest⟩ := List.forall_mem_cons.mp hwork
      rw [Flow.walk] at hw
      split at hw
      · next prev hp =>
        rw [if_pos (hM.agree i prev d (he i prev hp) hi)] at hw
        exact ih hw hrest he
      · obtain ⟨succs, hv, hs⟩ := hM.visit i d hi
        rw [hv] at hw
        refine ih hw (fun s hsm => ?_) fun j d' hj => ?_
        · rcases List.mem_append.mp hsm with hsm | hsm
          · exact hs s (List.mem_reverse.mp hsm)
          · exact hrest s hsm
        · by_cases hji : j = i
          · subst hji
            rw [Function.update_self] at hj
            cases hj
            exact hi
          · rw [Function.update_of_ne hji] at hj
            exact he j d' hj

theorem walk_isSome [Fintype N] {F : Flow N D ε}
    (hb : ∀ i d succs, F.visit i d = .ok succs → succs.length ≤ b)
    (hk : b * unassigned e + work.length < k) : (F.walk k work e).isSome := by
  induction k generalizing work e with
  | zero => cases hk
  | succ k ih =>
    match work with
    | [] => rfl
    | (i, d) :: work =>
      rw [walk]
      rw [List.length_cons] at hk
      split
      · split
        · exact ih (by omega)
        · rfl
      · rename_i hi
        split
        · rfl
        · rename_i succs hv
          apply ih
          have hlen := hb i d succs hv
          have hun := Nat.mul_le_mul_left b (unassigned_update hi d)
          rw [List.length_append, List.length_reverse]
          rw [Nat.succ_eq_add_one, Nat.mul_add, Nat.mul_one] at hun
          omega

end Walk

end Flow
end AScript.Lib
