import AScript.Lib.Precedence
import AScript.Stdlib.SemverGrammar
import Mathlib.Data.Char

namespace AScript.Stdlib.Semver

open AScript.Lib

abbrev IdRank := ℕ ⊕ₗ Text

abbrev Rank := ℕ ×ₗ ℕ ×ₗ ℕ ×ₗ WithTop (List IdRank)

def PreId.rank : PreId → IdRank
  | .num n => toLex (.inl n.toNat)
  | .alpha s => toLex (.inr s)

def Version.preRank (pre : List PreId) : WithTop (List IdRank) :=
  if pre.isEmpty then ⊤ else (pre.map PreId.rank : List IdRank)

def rankAt (major minor patch : ℕ) (pre : WithTop (List IdRank)) : Rank :=
  toLex (major, toLex (minor, toLex (patch, pre)))

def Version.rank (v : Version) : Rank :=
  rankAt v.major.toNat v.minor.toNat v.patch.toNat (preRank v.pre)

theorem compares_u64 (a b : UInt64) : (compare a b).Compares a.toNat b.toNat :=
  compares_of (Std.compare_eq_lt.trans UInt64.lt_iff_toNat_lt)
    (Std.compare_eq_iff_eq.trans UInt64.toNat_inj.symm)

theorem compares_char (a b : Char) : (compare a b).Compares a b :=
  compares_of (f := id) compare_lt_iff_lt compare_eq_iff_eq

theorem compares_text (s t : Text) : (List.compareLex compare s t).Compares s t := by
  have h := compares_compareLex (f := id) compares_char s t
  rwa [List.map_id, List.map_id] at h

theorem PreId.compares : ∀ a b : PreId, (a.cmp b).Compares a.rank b.rank
  | .num a, .num b => by
    have h := compares_u64 a b
    rw [PreId.cmp]
    cases hc : compare a b <;> rw [hc] at h
    · exact Sum.Lex.inl_lt_inl_iff.mpr h
    · exact congrArg (fun n => toLex (Sum.inl n)) h
    · exact Sum.Lex.inl_lt_inl_iff.mpr h
  | .alpha a, .alpha b => by
    have h := compares_text a b
    rw [PreId.cmp]
    cases hc : List.compareLex compare a b <;> rw [hc] at h
    · exact Sum.Lex.inr_lt_inr_iff.mpr h
    · exact congrArg (fun s => toLex (Sum.inr s)) h
    · exact Sum.Lex.inr_lt_inr_iff.mpr h
  | .num _, .alpha _ => Sum.Lex.inl_lt_inr _ _
  | .alpha _, .num _ => Sum.Lex.inl_lt_inr _ _

theorem compares_fields (a b : List PreId) :
    (Version.compareFields a b).Compares (a.map PreId.rank) (b.map PreId.rank) := by
  induction a generalizing b with
  | nil =>
    cases b with
    | nil => exact rfl
    | cons y b => exact List.Lex.nil
  | cons x a ih =>
    cases b with
    | nil => exact List.Lex.nil
    | cons y b =>
      have hlen : compare (x :: a).length (y :: b).length = compare a.length b.length := by
        simp only [List.length_cons, Nat.compare_eq_ite_lt, Nat.add_lt_add_iff_right]
      rw [Version.compareFields, List.zip_cons_cons, Version.firstDifference, hlen,
        Ordering.then_assoc]
      exact compares_cons (x.compares y) (ih b)

theorem compares_pre (a b : List PreId) :
    (match a.isEmpty, b.isEmpty with
      | true, true => Ordering.eq
      | true, false => .gt
      | false, true => .lt
      | false, false => Version.compareFields a b).Compares
      (Version.preRank a) (Version.preRank b) := by
  unfold Version.preRank
  cases a.isEmpty with
  | true =>
    cases b.isEmpty with
    | true => exact rfl
    | false => exact WithTop.coe_lt_top _
  | false =>
    cases b.isEmpty with
    | true => exact WithTop.coe_lt_top _
    | false =>
      have h := compares_fields a b
      dsimp only
      cases hc : Version.compareFields a b <;> rw [hc] at h
      · exact WithTop.coe_lt_coe.mpr h
      · exact congrArg (fun l : List IdRank => (l : WithTop (List IdRank))) h
      · exact WithTop.coe_lt_coe.mpr h

theorem Version.compares (v w : Version) : (v.precedence w).Compares v.rank w.rank := by
  have hpre := compares_pre v.pre w.pre
  have h := compares_then (compares_u64 v.major w.major) (compares_then
    (compares_u64 v.minor w.minor) (compares_then (compares_u64 v.patch w.patch) hpre))
  have heq : v.precedence w = (v.compareCore w).then (match v.pre.isEmpty, w.pre.isEmpty with
      | true, true => Ordering.eq
      | true, false => .gt
      | false, true => .lt
      | false, false => Version.compareFields v.pre w.pre) := by
    rw [Version.precedence]
    cases v.compareCore w <;> rfl
  rw [heq, Version.compareCore, Ordering.then_assoc, Ordering.then_assoc]
  exact h

theorem PreId.rank_injective : Function.Injective PreId.rank
  | .num a, .num b, h => by
    rw [UInt64.toNat_inj.mp (Sum.inl_injective (toLex.injective h))]
  | .alpha a, .alpha b, h => by rw [Sum.inr_injective (toLex.injective h)]
  | .num _, .alpha _, h => nomatch toLex.injective h
  | .alpha _, .num _, h => nomatch toLex.injective h

namespace Version

variable {u v w : Version}

theorem preRank_injective : Function.Injective preRank := by
  intro a b h
  unfold preRank at h
  cases a with
  | nil =>
    cases b with
    | nil => rfl
    | cons y b => exact absurd h.symm (WithTop.coe_ne_top)
  | cons x a =>
    cases b with
    | nil => exact absurd h (WithTop.coe_ne_top)
    | cons y b => exact (List.map_injective_iff.mpr PreId.rank_injective) (WithTop.coe_injective h)

theorem precedence_lt_iff : v.precedence w = .lt ↔ v.rank < w.rank := (compares v w).eq_lt

theorem precedence_gt_iff : v.precedence w = .gt ↔ w.rank < v.rank := (compares v w).eq_gt

theorem precedence_le_iff : v.precedence w ≠ .gt ↔ v.rank ≤ w.rank := by
  rw [Ne, precedence_gt_iff, not_lt]

theorem precedence_ge_iff : v.precedence w ≠ .lt ↔ w.rank ≤ v.rank := by
  rw [Ne, precedence_lt_iff, not_lt]

theorem precedence_eq_iff_rank : v.precedence w = .eq ↔ v.rank = w.rank := (compares v w).eq_eq

theorem precedence_eq_iff : v.precedence w = .eq ↔ { v with build := w.build } = w := by
  rw [precedence_eq_iff_rank, rank, rank, rankAt, rankAt]
  constructor
  · intro h
    obtain ⟨h₁, h⟩ := Prod.mk.inj (toLex.injective h)
    obtain ⟨h₂, h⟩ := Prod.mk.inj (toLex.injective h)
    obtain ⟨h₃, h₄⟩ := Prod.mk.inj (toLex.injective h)
    rw [UInt64.toNat_inj.mp h₁, UInt64.toNat_inj.mp h₂, UInt64.toNat_inj.mp h₃,
      preRank_injective h₄]
  · intro h
    rw [← h]

theorem precedence_trans (h : u.precedence v ≠ .gt) (h' : v.precedence w ≠ .gt) :
    u.precedence w ≠ .gt :=
  precedence_le_iff.mpr ((precedence_le_iff.mp h).trans (precedence_le_iff.mp h'))

theorem precedence_total (v w : Version) : v.precedence w ≠ .gt ∨ w.precedence v ≠ .gt := by
  rw [precedence_le_iff, precedence_le_iff]
  exact le_total _ _

end Version

theorem takes_max (v best : Version) : takes true v best = true ↔ best.rank < v.rank := by
  rw [takes, if_pos rfl, beq_iff_eq, Version.precedence_gt_iff]

structure Best (range : Range) (seen : List Text) (best : Option (Text × Version)) : Prop where
  mem : ∀ b ∈ best, b.1 ∈ seen ∧ parseVersion b.1 = .ok b.2 ∧ satisfies b.2 range = true
  above : ∀ s ∈ seen, ∀ w, parseVersion s = .ok w → satisfies w range = true →
    ∃ b ∈ best, w.rank ≤ b.2.rank

theorem Best.skip (h : Best range seen best) (hv : parseVersion s = .ok v)
    (hs : satisfies v range = false) : Best range (seen ++ [s]) best where
  mem b hb := ⟨List.mem_append_left _ (h.mem b hb).1, (h.mem b hb).2⟩
  above t ht w hw hsat := by
    rcases List.mem_append.mp ht with ht | ht
    · exact h.above t ht w hw hsat
    · rw [List.mem_singleton.mp ht, hv] at hw
      rw [← Except.ok.inj hw, hs] at hsat
      cases hsat

theorem Best.next (h : Best range seen best) (hv : parseVersion s = .ok v)
    (hold : ∀ o ∈ best, o.2.rank ≤ b.2.rank) (hnew : v.rank ≤ b.2.rank)
    (hb : b = (s, v) ∧ satisfies v range = true ∨ b ∈ best) :
    Best range (seen ++ [s]) (some b) where
  mem c hc := by
    obtain rfl := Option.some.inj hc
    rcases hb with ⟨rfl, hsat⟩ | hmem
    · exact ⟨List.mem_append_right _ List.mem_cons_self, hv, hsat⟩
    · exact ⟨List.mem_append_left _ (h.mem _ hmem).1, (h.mem _ hmem).2⟩
  above t ht w hw hsat := by
    refine ⟨b, rfl, ?_⟩
    rcases List.mem_append.mp ht with ht | ht
    · obtain ⟨o, ho, hle⟩ := h.above t ht w hw hsat
      exact hle.trans (hold o ho)
    · rw [List.mem_singleton.mp ht, hv] at hw
      rwa [← Except.ok.inj hw]

theorem Best.run (h : Best range seen best)
    (hrun : bestOf true range best raw = .ok result) : Best range (seen ++ raw) result := by
  induction raw generalizing seen best with
  | nil =>
    rw [bestOf] at hrun
    rwa [List.append_nil, ← Except.ok.inj hrun]
  | cons s raw ih =>
    rw [← List.singleton_append, ← List.append_assoc]
    rw [bestOf] at hrun
    cases hv : parseVersion s with
    | error e =>
      rw [hv] at hrun
      cases hrun
    | ok v =>
      rw [hv] at hrun
      dsimp only at hrun
      cases hs : satisfies v range with
      | false =>
        rw [hs] at hrun
        exact ih (h.skip hv hs) hrun
      | true =>
        rw [hs] at hrun
        cases best with
        | none => exact ih (h.next hv nofun le_rfl (.inl ⟨rfl, hs⟩)) hrun
        | some o =>
          refine ih (h.next hv ?_ ?_ ?_) hrun
          all_goals
            cases ht : takes true v o.2
            all_goals
              have hlt := takes_max v o.2
              rw [ht] at hlt
          · rintro _ ⟨⟩
            exact le_rfl
          · rintro _ ⟨⟩
            exact (hlt.mp rfl).le
          · exact not_lt.mp fun hlt' => nomatch hlt.mpr hlt'
          · exact le_rfl
          · exact .inr rfl
          · exact .inl ⟨rfl, hs⟩

theorem best_none : Best range [] none := ⟨nofun, nofun⟩

theorem callSatisfying_pair {best : Option Text}
    (h : callSatisfying checked true raw rangeStr = .pair best none) :
    ∃ range result, parseRange checked rangeStr = .ok range ∧ best = result.map Prod.fst ∧
      Best range raw result := by
  rw [callSatisfying] at h
  cases hr : parseRange checked rangeStr with
  | error e => cases e <;> rw [hr] at h <;> cases h
  | ok range =>
    rw [hr] at h
    dsimp only at h
    cases hbest : bestOf true range none raw with
    | error e =>
      rw [hbest] at h
      cases h
    | ok result =>
      rw [hbest] at h
      exact ⟨range, result, rfl, (Outcome.pair.inj h).1.symm, best_none.run hbest⟩

theorem succeeds_bestOf (h : ∀ s ∈ raw, Succeeds (parseVersion s)) :
    Succeeds (bestOf wantMax range best raw) := by
  induction raw generalizing best with
  | nil => exact succeeds_ok
  | cons s raw ih =>
    obtain ⟨⟨v, hv⟩, h⟩ := List.forall_mem_cons.mp h
    rw [bestOf, hv]
    dsimp only
    split
    · exact ih h
    · cases best with
      | none => exact ih h
      | some o => exact ih h

/-- What is taken for a version, how versions are ordered, and what `maxSatisfying` finds. -/
theorem versions (input : Text) (u v w : Version) (checked : Bool) (raw : List Text)
    (rangeStr best : Text) :
    (Succeeds (parseVersion input) ↔
      ∃ x : Spelling, x.Grammatical ∧ x.Fits ∧ x.render = trim input) ∧
    (v.precedence w).Compares v.rank w.rank ∧
    (v.precedence w = .eq ↔ { v with build := w.build } = w) ∧
    (u.precedence v ≠ .gt → v.precedence w ≠ .gt → u.precedence w ≠ .gt) ∧
    (v.precedence w ≠ .gt ∨ w.precedence v ≠ .gt) ∧
    (callSatisfying checked true raw rangeStr = .pair (some best) none →
      best ∈ raw ∧ ∃ range b, parseRange checked rangeStr = .ok range ∧
        parseVersion best = .ok b ∧ satisfies b range = true ∧
          ∀ s ∈ raw, ∀ c, parseVersion s = .ok c → satisfies c range = true →
            b.precedence c ≠ .lt) ∧
    (callSatisfying checked true raw rangeStr = .pair none none →
      ∃ range, parseRange checked rangeStr = .ok range ∧
        ∀ s ∈ raw, ∀ c, parseVersion s = .ok c → satisfies c range = false) ∧
    (Succeeds (parseRange checked rangeStr) → (∀ s ∈ raw, Succeeds (parseVersion s)) →
      ∃ found, callSatisfying checked true raw rangeStr = .pair found none) := by
  refine ⟨succeeds_iff_grammatical input, v.compares w, Version.precedence_eq_iff,
    Version.precedence_trans, Version.precedence_total v w, fun h => ?_, fun h => ?_,
    fun ⟨range, hr⟩ hraw => ?_⟩
  · obtain ⟨range, result, hr, hbest, hinv⟩ := callSatisfying_pair h
    obtain ⟨⟨s, b⟩, rfl, rfl⟩ := Option.map_eq_some_iff.mp hbest.symm
    obtain ⟨hmem, hparse, hsat⟩ := hinv.mem (s, b) rfl
    refine ⟨hmem, range, b, hr, hparse, hsat, fun t ht c hc hcs => ?_⟩
    obtain ⟨_, ⟨⟩, hle⟩ := hinv.above t ht c hc hcs
    exact Version.precedence_ge_iff.mpr hle
  · obtain ⟨range, result, hr, hbest, hinv⟩ := callSatisfying_pair h
    obtain rfl := Option.map_eq_none_iff.mp hbest.symm
    refine ⟨range, hr, fun s hs c hc => ?_⟩
    by_contra hsat
    obtain ⟨_, ⟨⟩, -⟩ := hinv.above s hs c hc (Bool.eq_true_of_not_eq_false hsat)
  · obtain ⟨result, hresult⟩ : Succeeds (bestOf true range none raw) := succeeds_bestOf hraw
    refine ⟨result.map Prod.fst, ?_⟩
    rw [callSatisfying, hr]
    dsimp only
    rw [hresult]

/-- The greatest of three versions that `^1.2` takes two of, and none that it takes. -/
theorem versions_caret :
    let found : Text := ['1', '.', '3', '.', '0']
    let others : List Text := [['1', '.', '2', '.', '0'], ['2', '.', '0', '.', '0']]
    let range : Text := ['^', '1', '.', '2']
    (found ∈ found :: others ∧ ∃ r b, parseRange true range = .ok r ∧
      parseVersion found = .ok b ∧ satisfies b r = true ∧
        ∀ s ∈ found :: others, ∀ c, parseVersion s = .ok c → satisfies c r = true →
          b.precedence c ≠ .lt) ∧
      ∃ r, parseRange true range = .ok r ∧ ∀ s ∈ others.drop 1, ∀ c, parseVersion s = .ok c →
        satisfies c r = false := by
  have hv (found : Text) (raw : List Text) :=
    (versions [] ⟨0, 0, 0, [], []⟩ ⟨0, 0, 0, [], []⟩ ⟨0, 0, 0, [], []⟩ true raw
      ['^', '1', '.', '2'] found).2.2.2.2.2
  exact ⟨(hv _ _).1 (by decide +kernel), (hv [] _).2.1 (by decide +kernel)⟩

end AScript.Stdlib.Semver
