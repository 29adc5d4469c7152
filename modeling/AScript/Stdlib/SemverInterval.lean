import AScript.Stdlib.SemverRange

namespace AScript.Stdlib.Semver

open AScript.Lib

inductive Partial.WellFormed : Partial → Prop
  | any : WellFormed ⟨none, none, none, ids⟩
  | major : WellFormed ⟨some a, none, none, ids⟩
  | minor : WellFormed ⟨some a, some b, none, ids⟩
  | full : WellFormed ⟨some a, some b, some c, ids⟩

theorem refuse_ok (h : refuse bad message = .ok u) : bad = false := by
  cases bad with
  | true => cases h
  | false => rfl

theorem parsePartial_wellFormed (h : parsePartial tok = .ok p) : p.WellFormed := by
  unfold parsePartial at h
  dsimp only at h
  split at h
  · rw [← Except.ok.inj h]
    exact .any
  split at h
  · cases h
  obtain ⟨major, -, h⟩ := ok_bind h
  obtain ⟨minor, -, h⟩ := ok_bind h
  obtain ⟨patch, -, h⟩ := ok_bind h
  obtain ⟨_, -, h⟩ := ok_bind h
  obtain ⟨_, hmajor, h⟩ := ok_bind h
  obtain ⟨_, hminor, h⟩ := ok_bind h
  obtain ⟨pre, -, h⟩ := ok_bind h
  have hmajor := refuse_ok hmajor
  have hminor := refuse_ok hminor
  rw [← Except.ok.inj h]
  clear h
  cases major <;> cases minor <;> cases patch
  all_goals
    first
    | constructor
    | exact Bool.noConfusion hmajor
    | exact Bool.noConfusion hminor

def Form.operand : Form → Partial
  | .caret p | .tilde p | .cmp _ p | .plain p => p

theorem readForm_wellFormed (h : readForm tok = .ok f) : f.operand.WellFormed := by
  unfold readForm at h
  dsimp only at h
  split at h
  · cases h
  split at h
  · cases h
  split at h
  · obtain ⟨p, hp, rfl⟩ := map_ok h
    exact parsePartial_wellFormed hp
  split at h
  · obtain ⟨p, hp, rfl⟩ := map_ok h
    exact parsePartial_wellFormed hp
  split at h
  · obtain ⟨p, hp, rfl⟩ := map_ok h
    exact parsePartial_wellFormed hp
  · obtain ⟨p, hp, rfl⟩ := map_ok h
    exact parsePartial_wellFormed hp

def Clause.WellFormed : Clause → Prop
  | .hyphen low high => low.WellFormed ∧ high.WellFormed
  | .all forms => forms ≠ [] ∧ ∀ f ∈ forms, f.operand.WellFormed

theorem readClause_wellFormed (h : readClause part = .ok c) : c.WellFormed := by
  unfold readClause at h
  dsimp only at h
  split at h
  · rw [← Except.ok.inj h]
    exact ⟨List.cons_ne_nil _ _, List.forall_mem_singleton.mpr .any⟩
  split at h
  · split at h
    · obtain ⟨low, hlow, h⟩ := ok_bind h
      obtain ⟨high, hhigh, h⟩ := ok_bind h
      rw [← Except.ok.inj h]
      exact ⟨parsePartial_wellFormed hlow, parsePartial_wellFormed hhigh⟩
    · cases h
  · obtain ⟨forms, hforms, h⟩ := ok_bind h
    rw [← Except.ok.inj h]
    cases forms with
    | nil => exact ⟨List.cons_ne_nil _ _, List.forall_mem_singleton.mpr .any⟩
    | cons f fs =>
      refine ⟨List.cons_ne_nil _ _, fun g hg => ?_⟩
      obtain ⟨tok, -, hread⟩ := mapM_mem hforms hg
      exact readForm_wellFormed hread

theorem readRange_wellFormed (h : readRange input = .ok clauses) (hc : c ∈ clauses) :
    c.WellFormed := by
  obtain ⟨part, -, hread⟩ := mapM_mem h hc
  exact readClause_wellFormed hread

theorem rawMatches_lt : Comparator.rawMatches ⟨.lt, b⟩ v = true ↔ v.rank < b.rank := by
  rw [Comparator.rawMatches, beq_iff_eq, Version.precedence_lt_iff]

theorem rawMatches_lte : Comparator.rawMatches ⟨.lte, b⟩ v = true ↔ v.rank ≤ b.rank := by
  rw [Comparator.rawMatches, bne_iff_ne, Version.precedence_le_iff]

theorem rawMatches_gt : Comparator.rawMatches ⟨.gt, b⟩ v = true ↔ b.rank < v.rank := by
  rw [Comparator.rawMatches, beq_iff_eq, Version.precedence_gt_iff]

theorem rawMatches_gte : Comparator.rawMatches ⟨.gte, b⟩ v = true ↔ b.rank ≤ v.rank := by
  rw [Comparator.rawMatches, bne_iff_ne, Version.precedence_ge_iff]

theorem rawMatches_eq : Comparator.rawMatches ⟨.eq, b⟩ v = true ↔ v.rank = b.rank := by
  rw [Comparator.rawMatches, beq_iff_eq, Version.precedence_eq_iff_rank]

theorem rank_ver (a b c : UInt64) : (ver a b c).rank = release (a.toNat, b.toNat, c.toNat) := rfl

def Fits (bound : Option Triple) : Prop :=
  ∀ t ∈ bound, t.1 < 2 ^ 64 ∧ t.2.1 < 2 ^ 64 ∧ t.2.2 < 2 ^ 64

structure Bounds (r : Bool → Except Failure Version) (t : Triple) : Prop where
  fits : Fits (some t) → ∀ checked, ∃ v, r checked = .ok v ∧ v.rank = release t
  overflow : ¬ Fits (some t) → r true = .error .overflow

theorem fits_some : Fits (some (a, b, c)) ↔ a < 2 ^ 64 ∧ b < 2 ^ 64 ∧ c < 2 ^ 64 := by
  simp [Fits]

theorem addOne_fits {n : UInt64} (h : n.toNat + 1 < 2 ^ 64) (checked : Bool) :
    addOne checked n = .ok (n + 1) ∧ (n + 1).toNat = n.toNat + 1 := by
  constructor
  · rw [addOne, if_neg]
    simp only [Bool.and_eq_true, beq_iff_eq, not_and]
    exact fun _ => h.ne
  · rw [UInt64.toNat_add]
    exact Nat.mod_eq_of_lt h

theorem addOne_overflow {n : UInt64} (h : ¬ n.toNat + 1 < 2 ^ 64) :
    addOne true n = .error .overflow := by
  have := n.toNat_lt
  rw [addOne, if_pos]
  simp only [Bool.true_and, beq_iff_eq]
  omega

theorem bounds_addOne {n : UInt64} {make : UInt64 → Version} {t : Triple}
    (hfits : Fits (some t) ↔ n.toNat + 1 < 2 ^ 64)
    (hrank : ∀ m : UInt64, m.toNat = n.toNat + 1 → (make m).rank = release t) :
    Bounds (fun checked => do return make (← addOne checked n)) t where
  fits h checked := by
    obtain ⟨hadd, hval⟩ := addOne_fits (hfits.mp h) checked
    exact ⟨make (n + 1), by rw [hadd]; rfl, hrank _ hval⟩
  overflow h := by
    rw [addOne_overflow fun h' => h (hfits.mpr h')]
    rfl

theorem bounds_major (a : UInt64) :
    Bounds (fun checked => do return ver (← addOne checked a) 0 0) (a.toNat + 1, 0, 0) :=
  bounds_addOne (by simp [fits_some]) fun m hm => by rw [rank_ver, hm]; rfl

theorem bounds_minor (a b : UInt64) :
    Bounds (fun checked => do return ver a (← addOne checked b) 0) (a.toNat, b.toNat + 1, 0) :=
  bounds_addOne (by simp [fits_some, a.toNat_lt]) fun m hm => by rw [rank_ver, hm]; rfl

theorem bounds_patch (c : UInt64) :
    Bounds (fun checked => do return ver 0 0 (← addOne checked c)) (0, 0, c.toNat + 1) :=
  bounds_addOne (by simp [fits_some]) fun m hm => by rw [rank_ver, hm]; rfl

theorem bounds_const {v : Version} (h : v.rank = release t) (ht : Fits (some t)) :
    Bounds (fun _ => .ok v) t where
  fits _ _ := ⟨v, rfl, h⟩
  overflow hn := absurd ht hn

theorem bounds_caret (hp : p.WellFormed) (h : p.caretNext = some t) :
    Bounds (fun checked => caretUpper checked p) t := by
  cases hp with
  | any => cases h
  | @major a ids =>
    obtain rfl := Option.some.inj h
    by_cases ha : a = 0
    · subst ha
      exact bounds_const (v := ver 1 0 0) rfl (by simp [fits_some])
    · have heq : ∀ checked, caretUpper checked ⟨some a, none, none, ids⟩ =
          do return ver (← addOne checked a) 0 0 := fun checked => if_pos ha
      simp only [heq]
      exact bounds_major a
  | @minor a b ids =>
    obtain rfl := Option.some.inj h
    by_cases ha : a = 0
    · subst ha
      rw [if_neg (by simp)]
      by_cases hb : b = 0
      · subst hb
        exact bounds_const (v := ver 0 1 0) rfl (by simp [fits_some])
      · have heq : ∀ checked, caretUpper checked ⟨some 0, some b, none, ids⟩ =
            do return ver 0 (← addOne checked b) 0 := fun checked => if_pos hb
        simp only [heq]
        exact bounds_minor 0 b
    · rw [if_pos ha]
      have heq : ∀ checked, caretUpper checked ⟨some a, some b, none, ids⟩ =
          do return ver (← addOne checked a) 0 0 := fun checked => if_pos ha
      simp only [heq]
      exact bounds_major a
  | @full a b c ids =>
    obtain rfl := Option.some.inj h
    by_cases ha : a = 0
    · subst ha
      rw [if_neg (by simp)]
      by_cases hb : b = 0
      · subst hb
        rw [if_neg (by simp)]
        by_cases hc : c = 0
        · subst hc
          exact bounds_const (v := ver 0 0 1) rfl (by simp [fits_some])
        · have heq : ∀ checked, caretUpper checked ⟨some 0, some 0, some c, ids⟩ =
              do return ver 0 0 (← addOne checked c) := fun checked => by
            simp [caretUpper, Option.filter, hc]
          simp only [heq]
          exact bounds_patch c
      · rw [if_pos hb]
        have heq : ∀ checked, caretUpper checked ⟨some 0, some b, some c, ids⟩ =
            do return ver 0 (← addOne checked b) 0 := fun checked => if_pos hb
        simp only [heq]
        exact bounds_minor 0 b
    · rw [if_pos ha]
      have heq : ∀ checked, caretUpper checked ⟨some a, some b, some c, ids⟩ =
          do return ver (← addOne checked a) 0 0 := fun checked => if_pos ha
      simp only [heq]
      exact bounds_major a

theorem bounds_tilde (hp : p.WellFormed) (h : p.tildeNext = some t) :
    Bounds (fun checked => tildeUpper checked p) t := by
  cases hp with
  | any => cases h
  | major =>
    obtain rfl := Option.some.inj h
    exact bounds_major _
  | minor =>
    obtain rfl := Option.some.inj h
    exact bounds_minor _ _
  | full =>
    obtain rfl := Option.some.inj h
    exact bounds_minor _ _

def Form.upper : Form → Option Triple
  | .caret p => p.caretNext
  | .tilde p => p.tildeNext
  | .plain p => if p.isFull then none else p.next
  | .cmp _ _ => none

def Form.least : Form → Version
  | .plain p => ver (p.major.getD 0) (p.minor.getD 0) (p.patch.getD 0)
  | .caret p | .tilde p | .cmp _ p => floor p

structure Cut (r : Bool → Except Failure CompSet) (least : Version) (t : Triple) : Prop where
  fits : Fits (some t) → ∀ checked, ∃ v, r checked = .ok [⟨.gte, least⟩, ⟨.lt, v⟩] ∧
    v.rank = release t
  overflow : ¬ Fits (some t) → r true = .error .overflow

theorem Bounds.cut (h : Bounds upper t)
    (hr : ∀ checked, r checked = upper checked >>= fun v => pure [⟨.gte, least⟩, ⟨.lt, v⟩]) :
    Cut r least t where
  fits hf checked := by
    obtain ⟨v, hv, hrank⟩ := h.fits hf checked
    exact ⟨v, by rw [hr, hv]; rfl, hrank⟩
  overflow hf := by
    rw [hr, h.overflow hf]
    rfl

theorem cut_partial (hp : p.WellFormed) (hfull : p.isFull = false) (h : p.next = some t) :
    Cut (fun checked => desugarPartial checked p) (Form.plain p).least t := by
  cases hp with
  | any => cases h
  | @major a ids =>
    obtain rfl := Option.some.inj h
    refine (bounds_major a).cut fun checked => ?_
    simp only [desugarPartial]
    cases addOne checked a <;> rfl
  | @minor a b ids =>
    obtain rfl := Option.some.inj h
    refine (bounds_minor a b).cut fun checked => ?_
    simp only [desugarPartial]
    cases addOne checked b <;> rfl
  | full => cases hfull

theorem Form.cut {f : Form} (hp : f.operand.WellFormed) (h : f.upper = some t) :
    Cut (fun checked => f.desugar checked) f.least t := by
  cases f with
  | caret p => exact (bounds_caret hp h).cut fun _ => rfl
  | tilde p => exact (bounds_tilde hp h).cut fun _ => rfl
  | cmp op p => cases h
  | plain p =>
    rw [Form.upper] at h
    split at h
    · cases h
    · next hfull => exact cut_partial hp (by simpa using hfull) h

theorem Form.interval_cut {f : Form} (h : f.upper = some t) :
    f.interval = Set.Ici f.least.rank ∩ Set.Iio (release t) := by
  cases f with
  | caret p =>
    have h : p.caretNext = some t := h
    rw [Form.interval, h]
    rfl
  | tilde p =>
    have h : p.tildeNext = some t := h
    rw [Form.interval, h]
    rfl
  | cmp op p => cases h
  | plain p =>
    rw [Form.upper] at h
    split at h
    · cases h
    · next hfull =>
      rw [Form.interval, Partial.versions, if_neg hfull, h]
      rfl

/-- No operator is given a partial operand that it would have to take as a whole. -/
def Form.Pointed : Form → Prop
  | .caret p | .tilde p => p.major ≠ none
  | .cmp op p => op = .gte ∨ op = .lt ∨ p.isFull = true
  | .plain _ => True

def Selects (cs : CompSet) (s : Set Rank) : Prop := ∀ v, cs.all (·.rawMatches v) = true ↔ v.rank ∈ s

theorem selects_cut (h : v.rank = release t) :
    Selects [⟨.gte, least⟩, ⟨.lt, v⟩] (Set.Ici least.rank ∩ Set.Iio (release t)) := fun w => by
  rw [List.all_cons, List.all_cons, List.all_nil, Bool.and_true, Bool.and_eq_true, rawMatches_gte,
    rawMatches_lt, h]
  rfl

theorem selects_one {c : Comparator} {s : Set Rank} (h : ∀ v, c.rawMatches v = true ↔ v.rank ∈ s) :
    Selects [c] s := fun v => by
  rw [List.all_cons, List.all_nil, Bool.and_true, h]

theorem selects_cmp (h : (Form.cmp op p).Pointed) :
    Selects [⟨op, floor p⟩] (Form.cmp op p).interval := by
  refine selects_one fun v => ?_
  cases op with
  | gte => exact rawMatches_gte
  | lt => exact rawMatches_lt
  | gt =>
    have hfull : p.isFull = true := h.elim nofun (·.elim nofun id)
    rw [Form.interval, if_pos hfull]
    exact rawMatches_gt
  | lte =>
    have hfull : p.isFull = true := h.elim nofun (·.elim nofun id)
    rw [Form.interval, if_pos hfull]
    exact rawMatches_lte
  | eq =>
    have hfull : p.isFull = true := h.elim nofun (·.elim nofun id)
    rw [Form.interval, Partial.versions, if_pos hfull]
    exact rawMatches_eq

theorem selects_any : Selects [anyVersion] anything.interval := by
  refine selects_one fun v => rawMatches_gte.trans ?_
  exact (and_self_iff).symm

theorem Form.meaning {f : Form} (hp : f.operand.WellFormed) (hf : Fits f.upper) (checked : Bool) :
    ∃ cs, f.desugar checked = .ok cs ∧ (f.Pointed → Selects cs f.interval) := by
  cases hu : f.upper with
  | some t =>
    rw [hu] at hf
    obtain ⟨v, hv, hrank⟩ := (f.cut hp hu).fits hf checked
    refine ⟨_, hv, fun _ => ?_⟩
    rw [f.interval_cut hu]
    exact selects_cut hrank
  | none =>
    cases f with
    | caret p =>
      cases hp with
      | any => exact ⟨_, rfl, fun h => absurd rfl h⟩
      | major => cases hu
      | minor => cases hu
      | full => cases hu
    | tilde p =>
      cases hp with
      | any =>
        cases checked
        · exact ⟨_, rfl, fun h => absurd rfl h⟩
        · exact ⟨_, rfl, fun h => absurd rfl h⟩
      | major => cases hu
      | minor => cases hu
      | full => cases hu
    | cmp op p => exact ⟨_, rfl, selects_cmp⟩
    | plain p =>
      cases hp with
      | any => exact ⟨_, rfl, fun _ => selects_any⟩
      | major => cases hu
      | minor => cases hu
      | full => exact ⟨_, rfl, fun _ => selects_one fun v => rawMatches_eq⟩

theorem Form.overflow {f : Form} (hp : f.operand.WellFormed) (hf : ¬ Fits f.upper) :
    f.desugar true = .error .overflow := by
  cases hu : f.upper with
  | some t =>
    rw [hu] at hf
    exact (f.cut hp hu).overflow hf
  | none =>
    rw [hu] at hf
    exact absurd nofun hf

def Clause.Fits : Clause → Prop
  | .hyphen _ high => Semver.Fits (if high.isFull then none else high.next)
  | .all forms => ∀ f ∈ forms, Semver.Fits f.upper

def Clause.Pointed : Clause → Prop
  | .hyphen _ _ => True
  | .all forms => ∀ f ∈ forms, f.Pointed

theorem cut_hyphen (low : Partial) (hp : high.WellFormed) (hfull : high.isFull = false)
    (h : high.next = some t) :
    Cut (fun checked => (Clause.hyphen low high).desugar checked) (floor low) t := by
  cases hp with
  | any => cases h
  | @major a ids =>
    obtain rfl := Option.some.inj h
    refine (bounds_major a).cut fun checked => ?_
    simp only [Clause.desugar, hyphenHigh]
    cases addOne checked a <;> rfl
  | @minor a b ids =>
    obtain rfl := Option.some.inj h
    refine (bounds_minor a b).cut fun checked => ?_
    simp only [Clause.desugar, hyphenHigh]
    cases addOne checked b <;> rfl
  | full => cases hfull

theorem selects_pair {c d : Comparator} {s t : Set Rank}
    (hc : ∀ v, c.rawMatches v = true ↔ v.rank ∈ s) (hd : ∀ v, d.rawMatches v = true ↔ v.rank ∈ t) :
    Selects [c, d] (s ∩ t) := fun v => by
  rw [List.all_cons, List.all_cons, List.all_nil, Bool.and_true, Bool.and_eq_true, hc, hd]
  rfl

theorem hyphen_meaning (low : Partial) (hp : high.WellFormed)
    (hf : (Clause.hyphen low high).Fits) (checked : Bool) :
    ∃ cs, (Clause.hyphen low high).desugar checked = .ok cs ∧
      Selects cs (Clause.hyphen low high).interval := by
  rw [Clause.Fits] at hf
  rw [Clause.interval]
  by_cases hfull : high.isFull = true
  · cases hp with
    | full => exact ⟨_, rfl, selects_pair (fun v => rawMatches_gte) fun v => rawMatches_lte⟩
    | any => cases hfull
    | major => cases hfull
    | minor => cases hfull
  · rw [if_neg hfull] at hf ⊢
    have hpart : high.isFull = false := by simpa using hfull
    cases hu : high.next with
    | some t =>
      rw [hu] at hf
      obtain ⟨v, hv, hrank⟩ := (cut_hyphen low hp hpart hu).fits hf checked
      exact ⟨_, hv, selects_cut hrank⟩
    | none =>
      cases hp with
      | any => exact ⟨_, rfl, selects_pair (fun v => rawMatches_gte) fun v => rawMatches_gte⟩
      | major => cases hu
      | minor => cases hu
      | full => cases hfull rfl

end AScript.Stdlib.Semver
