import Mathlib.Data.List.Basic
import Mathlib.Data.List.Pairwise
import Mathlib.Data.Nat.Basic
import Mathlib.Data.Set.Basic
import Mathlib.Order.Basic

namespace AScript.Lib.Intervals

/-- From an offset to an offset behind it. -/
abbrev Range := Nat × Nat

/-- One begins before the other ends, both ways; ranges that touch do not overlap. -/
def Overlap (r s : Range) : Prop := r.1 < s.2 ∧ s.1 < r.2

theorem Overlap.symm (h : Overlap r s) : Overlap s r := ⟨h.2, h.1⟩

def Before (r s : Range) : Prop := s.1 < r.1 ∨ s.1 = r.1 ∧ s.2 < r.2

def BeforeEq (r s : Range) : Prop := s.1 < r.1 ∨ s.1 = r.1 ∧ s.2 ≤ r.2

instance (r s : Range) : Decidable (BeforeEq r s) := inferInstanceAs (Decidable (_ ∨ _))

theorem BeforeEq.trans (h : BeforeEq r s) (h' : BeforeEq s t) : BeforeEq r t := by
  unfold BeforeEq at *
  omega

theorem BeforeEq.total (r s : Range) : BeforeEq r s ∨ BeforeEq s r := by
  unfold BeforeEq
  omega

theorem BeforeEq.antisymm (h : BeforeEq r s) (h' : BeforeEq s r) : r = s := by
  unfold BeforeEq at *
  exact Prod.ext (by omega) (by omega)

theorem BeforeEq.of_eq (h : r = s) : BeforeEq r s := h ▸ .inr ⟨rfl, le_rfl⟩

theorem Before.le (h : Before r s) : BeforeEq r s := h.imp id fun h => ⟨h.1, h.2.le⟩

theorem before_of_not_beforeEq (h : ¬ BeforeEq r s) : Before s r := by
  unfold BeforeEq at h
  unfold Before
  omega

theorem BeforeEq.eq_or_before (h : BeforeEq r s) : r = s ∨ Before r s := by
  by_cases hs : BeforeEq s r
  · exact .inl (h.antisymm hs)
  · exact .inr (before_of_not_beforeEq hs)

/-- The ranges taken from the right: the valid ones that overlap none taken before. -/
def Taken (valid taken : Set Range) : Prop :=
  ∀ r, r ∈ taken ↔ r ∈ valid ∧ ∀ s ∈ taken, Before s r → ¬ Overlap s r

theorem Taken.subset {valid taken : Set Range} (h : Taken valid taken) (hr : r ∈ taken) :
    r ∈ valid := ((h r).mp hr).1

theorem Taken.unique {valid R S : Set Range} (hbound : ∀ r ∈ valid, r.1 ≤ N ∧ r.2 ≤ N)
    (hR : Taken valid R) (hS : Taken valid S) : R = S := by
  have hagree : ∀ m n r, r ∈ valid → N - r.1 = m → N - r.2 = n → (r ∈ R ↔ r ∈ S) := by
    intro m
    induction m using Nat.strong_induction_on with
    | _ m ihm =>
    intro n
    induction n using Nat.strong_induction_on with
    | _ n ihn =>
    intro r hr hm hn
    have hbefore : ∀ s ∈ valid, Before s r → (s ∈ R ↔ s ∈ S) := by
      intro s hs hsr
      have hrN := hbound r hr
      have hsN := hbound s hs
      obtain hlt | ⟨heq, hlt⟩ := hsr
      · exact ihm (N - s.1) (by omega) _ s hs rfl rfl
      · exact ihn (N - s.2) (by omega) s hs (by omega) rfl
    rw [hR r, hS r]
    refine and_congr_right fun _ => ⟨fun h s hs hsr => ?_, fun h s hs hsr => ?_⟩
    · exact h s ((hbefore s (hS.subset hs) hsr).mpr hs) hsr
    · exact h s ((hbefore s (hR.subset hs) hsr).mp hs) hsr
  ext r
  constructor
  · exact fun hr => (hagree _ _ r (hR.subset hr) rfl rfl).mp hr
  · exact fun hr => (hagree _ _ r (hS.subset hr) rfl rfl).mpr hr

section Pass

variable {ι : Type*} (range : ι → Range) (ok : Range → Prop) [DecidablePred ok]

def kept : Nat → List ι → List ι
  | _, [] => []
  | limit, e :: l =>
    if ok (range e) ∧ (range e).2 ≤ limit then e :: kept (range e).1 l else kept limit l

def dropped : Nat → List ι → List ι
  | _, [] => []
  | limit, e :: l =>
    if ok (range e) ∧ (range e).2 ≤ limit then dropped (range e).1 l else e :: dropped limit l

def limitAfter : Nat → List ι → Nat
  | limit, [] => limit
  | limit, e :: l =>
    if ok (range e) ∧ (range e).2 ≤ limit then limitAfter (range e).1 l else limitAfter limit l

variable {range ok}

variable (range ok) in
theorem perm_kept_dropped (limit : Nat) (l : List ι) :
    (kept range ok limit l ++ dropped range ok limit l).Perm l := by
  induction l generalizing limit with
  | nil => exact .refl _
  | cons e l ih =>
    rw [kept, dropped]
    split
    · exact (ih _).cons e
    · exact List.perm_middle.trans ((ih _).cons e)

theorem kept_append (limit : Nat) (l m : List ι) : kept range ok limit (l ++ m) =
    kept range ok limit l ++ kept range ok (limitAfter range ok limit l) m := by
  induction l generalizing limit with
  | nil => rfl
  | cons e l ih =>
    rw [List.cons_append, kept, kept, limitAfter]
    split
    · rw [ih, List.cons_append]
    · rw [ih]

theorem mem_of_mem_kept (h : k ∈ kept range ok limit l) : k ∈ l :=
  (perm_kept_dropped range ok limit l).mem_iff.mp (List.mem_append_left _ h)

theorem ok_of_mem_kept (hok : ∀ r, ok r → r.1 ≤ r.2) (h : k ∈ kept range ok limit l) :
    ok (range k) ∧ (range k).2 ≤ limit := by
  induction l generalizing limit with
  | nil => cases h
  | cons e l ih =>
    rw [kept] at h
    split at h
    next he =>
      rcases List.mem_cons.mp h with rfl | h
      · exact he
      · have := hok _ he.1
        have := ih h
        exact ⟨this.1, by omega⟩
    next => exact ih h

theorem pairwise_kept (hok : ∀ r, ok r → r.1 ≤ r.2) (limit : Nat) (l : List ι) :
    (kept range ok limit l).Pairwise fun a b => (range b).2 ≤ (range a).1 := by
  induction l generalizing limit with
  | nil => exact .nil
  | cons e l ih =>
    rw [kept]
    split
    · exact .cons (fun b hb => (ok_of_mem_kept hok hb).2) (ih _)
    · exact ih _

theorem overlap_of_mem_dropped (hok : ∀ r, ok r → r.1 ≤ r.2)
    (hsorted : l.Pairwise fun a b => BeforeEq (range a) (range b))
    (h : d ∈ dropped range ok limit l) (hd : ok (range d)) :
    limit < (range d).2 ∨ ∃ k ∈ kept range ok limit l,
      BeforeEq (range k) (range d) ∧ Overlap (range k) (range d) := by
  induction l generalizing limit with
  | nil => cases h
  | cons e l ih =>
    obtain ⟨hfirst, hsorted⟩ := List.pairwise_cons.mp hsorted
    rw [dropped] at h
    rw [kept]
    split at h
    next he =>
      rw [if_pos he]
      right
      obtain hlt | ⟨k, hk, hover⟩ := ih hsorted h
      · refine ⟨e, List.mem_cons_self, ?_⟩
        have hmem : d ∈ l :=
          (perm_kept_dropped range ok _ l).mem_iff.mp (List.mem_append_right _ h)
        have hbefore := hfirst d hmem
        have := hok _ he.1
        refine ⟨hbefore, hlt, ?_⟩
        unfold BeforeEq at hbefore
        omega
      · exact ⟨k, List.mem_cons_of_mem e hk, hover⟩
    next he =>
      rw [if_neg he]
      rcases List.mem_cons.mp h with rfl | h
      · exact .inl (Nat.not_le.mp fun hle => he ⟨hd, hle⟩)
      · exact ih hsorted h

theorem not_overlap_kept (hok : ∀ r, ok r → r.1 ≤ r.2) (ha : a ∈ kept range ok limit l)
    (hb : b ∈ kept range ok limit l) (hne : range a ≠ range b) :
    ¬ Overlap (range a) (range b) := by
  have hsymm : Std.Symm fun a b => range a ≠ range b → ¬ Overlap (range a) (range b) :=
    ⟨fun _ _ h hne hover => h hne.symm hover.symm⟩
  have hapart : (kept range ok limit l).Pairwise
      fun a b => range a ≠ range b → ¬ Overlap (range a) (range b) :=
    (pairwise_kept hok limit l).imp fun h _ hover => Nat.not_le.mpr hover.1 h
  exact hapart.forall_of_forall (fun _ _ h => absurd rfl h) ha hb hne

/-- The valid ranges of a list of items. -/
def validRanges (range : ι → Range) (ok : Range → Prop) (l : List ι) : Set Range :=
  {r | ok r ∧ ∃ e ∈ l, range e = r}

theorem taken_kept (hok : ∀ r, ok r → r.1 ≤ r.2 ∧ r.2 ≤ limit)
    (hsorted : l.Pairwise fun a b => BeforeEq (range a) (range b)) :
    Taken (validRanges range ok l) {r | ∃ k ∈ kept range ok limit l, range k = r} := by
  have hle : ∀ r, ok r → r.1 ≤ r.2 := fun r hr => (hok r hr).1
  intro r
  constructor
  · rintro ⟨k, hk, rfl⟩
    refine ⟨⟨(ok_of_mem_kept hle hk).1, k, mem_of_mem_kept hk, rfl⟩, ?_⟩
    rintro _ ⟨j, hj, rfl⟩ hbefore
    refine not_overlap_kept hle hj hk fun he => ?_
    rw [he] at hbefore
    exact hbefore.elim (lt_irrefl _) fun h => lt_irrefl _ h.2
  · rintro ⟨⟨hr, e, he, rfl⟩, hfree⟩
    rcases List.mem_append.mp ((perm_kept_dropped range ok limit l).mem_iff.mpr he) with hk | hd
    · exact ⟨e, hk, rfl⟩
    · obtain hlt | ⟨k, hk, hbefore, hover⟩ := overlap_of_mem_dropped hle hsorted hd hr
      · exact absurd (hok _ hr).2 (Nat.not_le.mpr hlt)
      · obtain heq | hbefore := hbefore.eq_or_before
        · exact ⟨k, hk, heq⟩
        · exact absurd hover (hfree _ ⟨k, hk, rfl⟩ hbefore)

end Pass

end AScript.Lib.Intervals
