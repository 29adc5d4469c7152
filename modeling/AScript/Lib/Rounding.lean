import AScript.Lib.Float64
import Mathlib.Data.Nat.Bitwise
import Mathlib.Data.Nat.Log
import Mathlib.Tactic.Ring

namespace AScript.Lib

def nearest (n d : Nat) : Nat :=
  if 2 * (n % d) < d ∨ 2 * (n % d) = d ∧ n / d % 2 = 0 then n / d else n / d + 1

theorem nearest_spec (n : Nat) (hd : 0 < d) :
    2 * n ≤ 2 * (nearest n d * d) + d ∧ 2 * (nearest n d * d) ≤ 2 * n + d := by
  have hn := Nat.div_add_mod n d
  have hlt := Nat.mod_lt n hd
  have hq : (n / d + 1) * d = d * (n / d) + d := by ring
  have hq' : n / d * d = d * (n / d) := Nat.mul_comm ..
  unfold nearest
  split <;> omega

theorem nearest_mul (k : Nat) (hd : 0 < d) : nearest (k * d) d = k := by
  simp [nearest, hd]

theorem nearest_mono (h : m ≤ n) (d : Nat) : nearest m d ≤ nearest n d := by
  have hle := Nat.div_le_div_right (c := d) h
  cases Nat.lt_or_eq_of_le hle with
  | inl hlt => unfold nearest; split <;> split <;> omega
  | inr heq =>
    have hm := Nat.div_add_mod m d
    have hn := Nat.div_add_mod n d
    have hmod : m % d ≤ n % d := by rw [heq] at hm; omega
    unfold nearest
    rw [heq]
    split <;> split <;> omega

def spacing (n : Nat) : Nat := 2 ^ (n.log2 - 52)

theorem spacing_pos (n : Nat) : 0 < spacing n := Nat.two_pow_pos _

def roundUnits (n d : Nat) : Nat := nearest n (d * spacing (n / d)) * spacing (n / d)

theorem nearest_scale (n d : Nat) (hc : 0 < c) : nearest (n * c) (d * c) = nearest n d := by
  have hmod : n * c % (d * c) = n % d * c := Nat.mul_mod_mul_right ..
  have hdiv : n * c / (d * c) = n / d := Nat.mul_div_mul_right n d hc
  have hlt : 2 * (n % d * c) < d * c ↔ 2 * (n % d) < d := by
    rw [← Nat.mul_assoc]
    exact Nat.mul_lt_mul_right hc
  have heq : 2 * (n % d * c) = d * c ↔ 2 * (n % d) = d := by
    rw [← Nat.mul_assoc]
    exact Nat.mul_left_inj (Nat.ne_of_gt hc)
  rw [nearest, nearest, hmod, hdiv]
  simp only [hlt, heq]

theorem roundUnits_scale (n d : Nat) (hc : 0 < c) :
    roundUnits (n * c) (d * c) = roundUnits n d := by
  have hdiv : n * c / (d * c) = n / d := Nat.mul_div_mul_right n d hc
  rw [roundUnits, roundUnits, hdiv, Nat.mul_right_comm, nearest_scale _ _ hc]

theorem roundUnits_of_dvd (h : spacing n ∣ n) : roundUnits n 1 = n := by
  obtain ⟨k, hk⟩ := h
  rw [roundUnits, Nat.div_one, Nat.one_mul]
  nth_rewrite 1 [hk]
  rw [Nat.mul_comm, Nat.mul_comm (spacing n) k, nearest_mul k (spacing_pos n), hk.symm]

theorem spacing_spec (n : Nat) :
    n < 2 ^ 53 * spacing n ∧ (spacing n = 1 ∨ 2 ^ 52 * spacing n ≤ n) := by
  have hup : n < 2 ^ (n.log2 + 1) := Nat.lt_log2_self
  have hpow : 2 ^ 53 * spacing n = 2 ^ (53 + (n.log2 - 52)) := (Nat.pow_add ..).symm
  refine ⟨hpow ▸ hup.trans_le (Nat.pow_le_pow_right (by decide) (by omega)), ?_⟩
  by_cases h : n.log2 ≤ 52
  · exact .inl (by rw [spacing, Nat.sub_eq_zero_of_le h, Nat.pow_zero])
  · refine .inr ?_
    have hn : n ≠ 0 := by
      rintro rfl
      exact h (by decide)
    have hlow := Nat.log2_self_le hn
    rwa [spacing, ← Nat.pow_add, Nat.add_sub_cancel' (by omega)]

theorem spacing_mono (h : m ≤ n) : spacing m ≤ spacing n := by
  have hlog : m.log2 ≤ n.log2 := by
    rw [Nat.log2_eq_log_two, Nat.log2_eq_log_two]
    exact Nat.log_mono_right h
  exact Nat.pow_le_pow_right (by decide) (by omega)

theorem roundUnits_exact (h : m ≤ 2 ^ 53) (e : Nat) : roundUnits (m * 2 ^ e) 1 = m * 2 ^ e := by
  apply roundUnits_of_dvd
  obtain ⟨-, h1 | hlow⟩ := spacing_spec (m * 2 ^ e)
  · rw [h1]
    exact Nat.one_dvd _
  · have hmul : m * 2 ^ e ≤ 2 ^ 53 * 2 ^ e := Nat.mul_le_mul_right _ h
    rw [← Nat.pow_add] at hmul
    rw [spacing, ← Nat.pow_add] at hlow
    have hexp := (Nat.pow_le_pow_iff_right (by decide)).mp (hlow.trans hmul)
    cases Nat.lt_or_eq_of_le hexp with
    | inl hlt => exact Dvd.dvd.mul_left (Nat.pow_dvd_pow 2 (by omega)) m
    | inr heq =>
      have hall : m * 2 ^ e = 2 ^ (53 + e) := Nat.le_antisymm hmul (heq ▸ hlow)
      rw [spacing]
      nth_rewrite 2 [hall]
      exact Nat.pow_dvd_pow 2 (by omega)

theorem roundUnits_le (n : Nat) (hd : 0 < d) : roundUnits n d ≤ 2 ^ 53 * spacing (n / d) := by
  have hs := spacing_pos (n / d)
  have hlt := (Nat.div_lt_iff_lt_mul hd).mp (spacing_spec (n / d)).1
  rw [Nat.mul_assoc, Nat.mul_comm (spacing _)] at hlt
  have hmono := nearest_mono (Nat.le_of_lt hlt) (d * spacing (n / d))
  rw [nearest_mul _ (Nat.mul_pos hd hs)] at hmono
  exact Nat.mul_le_mul_right _ hmono

theorem le_roundUnits (hd : 0 < d) (h : 2 ^ 52 * spacing (n / d) ≤ n / d) :
    2 ^ 52 * spacing (n / d) ≤ roundUnits n d := by
  have hs := spacing_pos (n / d)
  have hle := (Nat.le_div_iff_mul_le hd).mp h
  rw [Nat.mul_assoc, Nat.mul_comm (spacing _)] at hle
  have hmono := nearest_mono hle (d * spacing (n / d))
  rw [nearest_mul _ (Nat.mul_pos hd hs)] at hmono
  exact Nat.mul_le_mul_right _ hmono

theorem roundUnits_mono (h : m ≤ n) (hd : 0 < d) : roundUnits m d ≤ roundUnits n d := by
  have hdiv := Nat.div_le_div_right (c := d) h
  cases Nat.lt_or_eq_of_le (spacing_mono hdiv) with
  | inr heq =>
    rw [roundUnits, roundUnits, heq]
    exact Nat.mul_le_mul_right _ (nearest_mono h _)
  | inl hlt =>
    -- The two lie in different binades, with a power of two between them.
    have htwice : 2 * spacing (m / d) ≤ spacing (n / d) := by
      rw [spacing, spacing] at hlt ⊢
      rw [← Nat.pow_succ']
      exact Nat.pow_le_pow_right (by decide) ((Nat.pow_lt_pow_iff_right (by decide)).mp hlt)
    have hlow := (spacing_spec (n / d)).2.resolve_left fun h1 => by
      have := spacing_pos (m / d)
      omega
    calc
      roundUnits m d ≤ 2 ^ 53 * spacing (m / d) := roundUnits_le m hd
      _ = 2 ^ 52 * (2 * spacing (m / d)) := by ring
      _ ≤ 2 ^ 52 * spacing (n / d) := Nat.mul_le_mul_left _ htwice
      _ ≤ roundUnits n d := le_roundUnits hd hlow

theorem roundUnits_error (n : Nat) (hd : 0 < d) :
    2 * n ≤ 2 * (roundUnits n d * d) + d * spacing (n / d) ∧
      2 * (roundUnits n d * d) ≤ 2 * n + d * spacing (n / d) := by
  have h := nearest_spec n (Nat.mul_pos hd (spacing_pos (n / d)))
  have heq : nearest n (d * spacing (n / d)) * (d * spacing (n / d)) = roundUnits n d * d := by
    rw [roundUnits]
    ring
  rwa [heq] at h

theorem spacing_gap {a b : Nat} (ha : spacing a ∣ a) (hb : spacing b ∣ b) (h : a < b) :
    b ≤ 2 ^ 53 * (b - a) := by
  obtain ⟨hupa, -⟩ := spacing_spec a
  obtain ⟨hupb, hlow⟩ := spacing_spec b
  have hs := spacing_pos a
  cases Nat.lt_or_eq_of_le (spacing_mono (Nat.le_of_lt h)) with
  | inr heq =>
    rw [← heq] at hb hupb
    have hgap : spacing a ≤ b - a := Nat.le_of_dvd (by omega) (Nat.dvd_sub hb ha)
    omega
  | inl hlt =>
    have hlow := hlow.resolve_left (by omega)
    have htwice : 2 * spacing a ≤ spacing b := by
      rw [spacing, spacing] at hlt ⊢
      rw [← Nat.pow_succ']
      exact Nat.pow_le_pow_right (by decide) ((Nat.pow_lt_pow_iff_right (by decide)).mp hlt)
    -- The binade of `a` ends at or below `b`.
    have hend : spacing a ∣ 2 ^ 53 * spacing a - a := Nat.dvd_sub (Nat.dvd_mul_left ..) ha
    have hlast := Nat.le_of_dvd (by omega) hend
    omega

theorem two_pow_le_floor {p e j : Nat} (h : 2 ^ p < (j + 1) * 2 ^ e) :
    2 ^ p ≤ j * 2 ^ e ∨ j = 0 ∧ 2 * 2 ^ p ≤ 2 ^ e := by
  by_cases hp : p < e
  · have hle : 2 * 2 ^ p ≤ 2 ^ e := by
      rw [← Nat.pow_succ']
      exact Nat.pow_le_pow_right (by decide) hp
    rcases Nat.eq_zero_or_pos j with rfl | hj
    · exact .inr ⟨rfl, hle⟩
    · have := Nat.le_mul_of_pos_left (2 ^ e) hj
      omega
  · obtain ⟨d, rfl⟩ := Nat.exists_eq_add_of_le (Nat.le_of_not_lt hp)
    rw [Nat.pow_add, Nat.mul_comm] at h ⊢
    have hd := Nat.lt_of_mul_lt_mul_right h
    exact .inl (Nat.mul_le_mul_right _ (by omega))

/-- How coarse the rounding of `m / k` is, in units of the numerator. -/
theorem coarse_quotient {m k j e : Nat} (hk : 0 < k) (hke : k < 2 ^ e) (hhigh : m < j * k + k) :
    k * spacing (m * 2 ^ e / k) < 2 ^ e ∨
      2 ^ 52 * (k * spacing (m * 2 ^ e / k)) ≤ j * k * 2 ^ e ∨
        j = 0 ∧ 2 ^ 53 * (k * spacing (m * 2 ^ e / k)) ≤ k * 2 ^ e ∧
          2 ^ 52 * (k * spacing (m * 2 ^ e / k)) ≤ m * 2 ^ e := by
  generalize hQ : m * 2 ^ e / k = Q
  cases (spacing_spec Q).2 with
  | inl h1 => exact .inl (by rwa [h1, Nat.mul_one])
  | inr h =>
    right
    have hlog : 2 ^ 52 * spacing Q = 2 ^ (52 + (Q.log2 - 52)) := (Nat.pow_add ..).symm
    have hup : Q < (j + 1) * 2 ^ e := by
      rw [← hQ, Nat.div_lt_iff_lt_mul hk, Nat.mul_right_comm, Nat.succ_mul]
      exact Nat.mul_lt_mul_of_pos_right hhigh (Nat.two_pow_pos e)
    have hfloor := two_pow_le_floor (hlog ▸ h.trans_lt hup)
    rw [← hlog] at hfloor
    have hmul : 2 ^ 52 * (k * spacing Q) = k * (2 ^ 52 * spacing Q) := by ring
    cases hfloor with
    | inl h' =>
      left
      calc
        2 ^ 52 * (k * spacing Q) = k * (2 ^ 52 * spacing Q) := hmul
        _ ≤ k * (j * 2 ^ e) := Nat.mul_le_mul_left k h'
        _ = j * k * 2 ^ e := by ring
    | inr h' =>
      refine .inr ⟨h'.1, ?_, ?_⟩
      · calc
          2 ^ 53 * (k * spacing Q) = k * (2 * (2 ^ 52 * spacing Q)) := by ring
          _ ≤ k * 2 ^ e := Nat.mul_le_mul_left k h'.2
      · calc
          2 ^ 52 * (k * spacing Q) = k * (2 ^ 52 * spacing Q) := hmul
          _ ≤ k * Q := Nat.mul_le_mul_left k h
          _ ≤ m * 2 ^ e := hQ ▸ Nat.mul_div_le ..

theorem not_whole {m k j c e : Nat} (hk' : k ≤ 2 ^ c) (hc : c < e) (hlow : j * k < m)
    (hhigh : m < j * k + k) (hgap : m ≤ 2 ^ 53 * (m - j * k))
    (hgap' : m ≤ 2 ^ 53 * (j * k + k - m)) : ¬ 2 ^ e ∣ roundUnits (m * 2 ^ e) k := by
  rintro ⟨r, hr⟩
  have hk : 0 < k := by omega
  have hke : k < 2 ^ e := hk'.trans_lt (Nat.pow_lt_pow_right (by decide) hc)
  obtain ⟨herr, herr'⟩ := roundUnits_error (m * 2 ^ e) hk
  have hR : roundUnits (m * 2 ^ e) k * k = r * k * 2 ^ e := by
    rw [hr]
    ring
  rw [hR] at herr herr'
  have hcoarse := coarse_quotient hk hke hhigh
  generalize m * 2 ^ e / k = Q at herr herr' hcoarse
  have hE := Nat.two_pow_pos e
  have hlow := Nat.mul_le_mul_right (2 ^ e) (Nat.succ_le_of_lt hlow)
  have hhigh := Nat.mul_le_mul_right (2 ^ e) (Nat.succ_le_of_lt hhigh)
  have hgap := Nat.mul_le_mul_right (2 ^ e) hgap
  have hgap' := Nat.mul_le_mul_right (2 ^ e) hgap'
  rw [Nat.mul_assoc, Nat.sub_mul] at hgap hgap'
  rw [Nat.succ_mul] at hlow hhigh
  rw [Nat.add_mul] at hhigh hgap'
  have hside : r * k * 2 ^ e ≤ j * k * 2 ^ e ∨ j * k * 2 ^ e + k * 2 ^ e ≤ r * k * 2 ^ e := by
    cases Nat.lt_or_ge j r with
    | inl h =>
      right
      rw [← Nat.add_mul, ← Nat.succ_mul]
      exact Nat.mul_le_mul_right _ (Nat.mul_le_mul_right k h)
    | inr h => exact .inl (Nat.mul_le_mul_right _ (Nat.mul_le_mul_right k h))
  rcases hcoarse with h | h | ⟨rfl, h, h'⟩
  · omega
  · omega
  · simp only [Nat.zero_mul, Nat.sub_zero, Nat.zero_add] at *
    omega

theorem dvd_roundUnits (m e : Nat) : 2 ^ e ∣ roundUnits (m * 2 ^ e) 1 := by
  by_cases hm : m ≤ 2 ^ 53
  · rw [roundUnits_exact hm]
    exact Nat.dvd_mul_left ..
  · rw [roundUnits, Nat.div_one]
    refine Dvd.dvd.mul_left ?_ _
    have hup := (spacing_spec (m * 2 ^ e)).1
    have hlow : 2 ^ 53 * 2 ^ e ≤ m * 2 ^ e := Nat.mul_le_mul_right _ (Nat.le_of_not_le hm)
    have hlt := Nat.lt_of_mul_lt_mul_left (hlow.trans_lt hup)
    rw [spacing] at hlt ⊢
    exact Nat.pow_dvd_pow 2 (Nat.le_of_lt ((Nat.pow_lt_pow_iff_right (by decide)).mp hlt))

theorem roundUnits_idem (n : Nat) : roundUnits (roundUnits n 1) 1 = roundUnits n 1 := by
  have hle := roundUnits_le n (show 0 < 1 by decide)
  rw [roundUnits] at hle ⊢
  exact roundUnits_exact (Nat.le_of_mul_le_mul_right hle (spacing_pos _)) _

namespace Datum

def limit : Nat := 2 ^ (1024 + 1074)

def round (n : Int) (d : Nat) : Datum :=
  let m := roundUnits n.natAbs d
  if m < limit then .fin (if n < 0 then -m else m) else .inf (n < 0)

def neg : Datum → Datum
  | .nan => .nan
  | .inf s => .inf !s
  | .fin n => .fin (-n)

def add : Datum → Datum → Datum
  | .nan, _ | _, .nan => .nan
  | .inf s, .inf t => if s = t then .inf s else .nan
  | .inf s, _ | _, .inf s => .inf s
  | .fin m, .fin n => round (m + n) 1

def sub (a b : Datum) : Datum := add a (neg b)

def div : Datum → Datum → Datum
  | .nan, _ | _, .nan => .nan
  | .inf _, .inf _ => .nan
  | .inf s, .fin n => .inf (s != decide (n < 0))
  | .fin _, .inf _ => .fin 0
  | .fin m, .fin n =>
    if n = 0 then if m = 0 then .nan else .inf (m < 0)
    else round (n.sign * m * one) n.natAbs

/-- `i as f64`. -/
def ofI64 (i : I64) : Datum := round (i.val * one) 1

def near (n : Int) : Int := if n < 0 then -roundUnits n.natAbs 1 else roundUnits n.natAbs 1

theorem near_mono (h : m ≤ n) : near m ≤ near n := by
  unfold near
  split <;> split
  · have := roundUnits_mono (d := 1) (show n.natAbs ≤ m.natAbs by omega) (by decide)
    omega
  · omega
  · omega
  · have := roundUnits_mono (d := 1) (show m.natAbs ≤ n.natAbs by omega) (by decide)
    omega

theorem natAbs_two_pow (e : Nat) : ((2 : Int) ^ e).natAbs = 2 ^ e := by
  rw [Int.natAbs_pow]
  rfl

theorem near_exact (h : n.natAbs ≤ 2 ^ 53) (e : Nat) : near (n * 2 ^ e) = n * 2 ^ e := by
  have habs : (n * 2 ^ e).natAbs = n.natAbs * 2 ^ e := by rw [Int.natAbs_mul, natAbs_two_pow]
  have hpos : (0 : Int) < 2 ^ e := Int.pow_pos (by decide)
  have hsign : n * 2 ^ e < 0 ↔ n < 0 := by
    have h0 : n * 2 ^ e < 0 * 2 ^ e ↔ n < 0 := Int.mul_lt_mul_right hpos
    rwa [Int.zero_mul] at h0
  rw [near, habs, roundUnits_exact h, Int.natCast_mul, Int.natCast_pow]
  split
  · rw [← Int.neg_mul, Int.ofNat_natAbs_of_nonpos (Int.le_of_lt (hsign.mp ‹_›)), Int.neg_neg]
    rfl
  · rw [Int.natAbs_of_nonneg (Int.not_lt.mp fun h => ‹¬_› (hsign.mpr h))]
    rfl

theorem near_ofInt (h : n.natAbs ≤ 2 ^ 53) : near (n * one) = n * one := near_exact h 1074

theorem roundUnits_lt (h : n ≤ 2 ^ e) (he : e < k) : roundUnits n 1 < 2 ^ k := by
  have hexact := roundUnits_exact (show 1 ≤ 2 ^ 53 by decide) e
  rw [Nat.one_mul] at hexact
  have hmono := roundUnits_mono h (show 0 < 1 by decide)
  rw [hexact] at hmono
  exact hmono.trans_lt (Nat.pow_lt_pow_right (by decide) he)

theorem round_near (h : n.natAbs ≤ 2 ^ e) (he : e < 1024 + 1074) : round n 1 = .fin (near n) := by
  have hlim : roundUnits n.natAbs 1 < limit := roundUnits_lt h he
  rw [round, if_pos hlim, near]

theorem natAbs_units (h : n.natAbs ≤ 2 ^ e) : (n * one).natAbs ≤ 2 ^ (e + 1074) := by
  rw [Int.natAbs_mul, one, natAbs_two_pow, Nat.pow_add]
  gcongr

theorem ofI64_near (i : I64) : ofI64 i = .fin (near (i.val * one)) := by
  have hl := i.lower
  have hu := i.upper
  exact round_near (natAbs_units (show i.val.natAbs ≤ 2 ^ 63 by omega)) (by decide)

theorem units_le_units : m * one ≤ n * one ↔ m ≤ n := Int.mul_le_mul_right one_pos

theorem units_lt_units : m * one < n * one ↔ m < n := Int.mul_lt_mul_right one_pos

theorem ofInt_lt (m n : Int) : (ofInt m).lt (ofInt n) = decide (m < n) := by
  rw [ofInt, ofInt, lt, decide_eq_decide]
  exact units_lt_units

theorem ofInt_beq (m n : Int) : (ofInt m).beq (ofInt n) = decide (m = n) := by
  rw [ofInt, ofInt, beq, Bool.eq_iff_iff, beq_iff_eq, decide_eq_true_eq]
  exact Int.mul_eq_mul_right_iff (Int.ne_of_gt one_pos)

theorem ofInt_le (m n : Int) : (ofInt m).le (ofInt n) = decide (m ≤ n) := by
  rw [le, ofInt_lt, ofInt_beq, Bool.eq_iff_iff, Bool.or_eq_true]
  simp only [decide_eq_true_eq]
  omega

theorem natAbs_near (n : Int) : (near n).natAbs = roundUnits n.natAbs 1 := by
  unfold near
  split <;> omega

theorem one_dvd_near (n : Int) : one ∣ near (n * one) := by
  rw [← Int.natAbs_dvd_natAbs, natAbs_near, Int.natAbs_mul, one, natAbs_two_pow]
  exact dvd_roundUnits ..

theorem near_near (n : Int) : near (near n) = near n := by
  have habs := natAbs_near n
  have hidem := roundUnits_idem n.natAbs
  rw [near, habs, hidem]
  unfold near at habs ⊢
  split <;> split <;> omega

theorem add_fin (h : (m + n).natAbs ≤ 2 ^ e) (he : e < 1024 + 1074) :
    add (.fin m) (.fin n) = .fin (near (m + n)) := by
  rw [add, round_near h he]

theorem sub_fin (h : (m - n).natAbs ≤ 2 ^ e) (he : e < 1024 + 1074) :
    sub (.fin m) (.fin n) = .fin (near (m - n)) := by
  rw [sub, neg, add_fin (by rwa [← Int.sub_eq_add_neg]) he, Int.sub_eq_add_neg]

theorem roundUnits_small (hn : n ≤ 2 ^ e) (hd : 0 < d) (he : e + 53 < k) :
    roundUnits n d < 2 ^ k := by
  have hle := roundUnits_le n hd
  have hs : spacing (n / d) ≤ 2 ^ e := by
    have hdiv := (Nat.div_le_self n d).trans hn
    cases (spacing_spec (n / d)).2 with
    | inl h => exact h ▸ Nat.one_le_two_pow
    | inr h => omega
  calc
    roundUnits n d ≤ 2 ^ 53 * 2 ^ e := hle.trans (Nat.mul_le_mul_left _ hs)
    _ = 2 ^ (53 + e) := (Nat.pow_add ..).symm
    _ < 2 ^ k := Nat.pow_lt_pow_right (by decide) (by omega)

theorem div_fin (hk : k ≠ 0) (hm : m.natAbs ≤ 2 ^ e) (he : e + 53 < 1024 + 1074) :
    div (.fin m) (.fin (k * one)) =
      .fin (if k.sign * m < 0 then -roundUnits m.natAbs k.natAbs
        else roundUnits m.natAbs k.natAbs) := by
  have hpos : 0 < k.natAbs := Int.natAbs_pos.mpr hk
  have hne : k * one ≠ 0 := Int.mul_ne_zero hk (Int.ne_of_gt one_pos)
  have hsign : (k * one).sign = k.sign := by
    rw [Int.sign_mul, Int.sign_eq_one_of_pos one_pos, Int.mul_one]
  have hneg : k.sign * m * one < 0 ↔ k.sign * m < 0 := by
    have h0 : k.sign * m * one < 0 * one ↔ k.sign * m < 0 := units_lt_units
    rwa [Int.zero_mul] at h0
  have habs : (k.sign * m * one).natAbs = m.natAbs * 2 ^ 1074 := by
    rw [Int.natAbs_mul, Int.natAbs_mul, Int.natAbs_sign_of_ne_zero hk, Nat.one_mul, one,
      natAbs_two_pow]
  have hden : (k * one).natAbs = k.natAbs * 2 ^ 1074 := by
    rw [Int.natAbs_mul, one, natAbs_two_pow]
  have hmag : roundUnits (m.natAbs * 2 ^ 1074) (k.natAbs * 2 ^ 1074) =
      roundUnits m.natAbs k.natAbs := by rw [roundUnits_scale _ _ (Nat.two_pow_pos 1074)]
  have hlim : roundUnits m.natAbs k.natAbs < limit := roundUnits_small hm hpos he
  rw [div, if_neg hne, hsign, round, habs, hden, hmag, if_pos hlim]
  simp only [hneg]

theorem exists_significand (h : ∀ i j, m.testBit i = true → m.testBit j = true → j ≤ i + 52) :
    ∃ k ≤ 2 ^ 53, ∃ e, m = k * 2 ^ e := by
  by_cases h0 : m = 0
  · exact ⟨0, by simp, 0, by simp [h0]⟩
  · have hex : ∃ i, m.testBit i = true := Nat.exists_testBit_of_ne_zero h0
    have hlow : 2 ^ Nat.find hex ∣ m := by
      apply Nat.dvd_of_mod_eq_zero
      apply Nat.eq_of_testBit_eq
      intro j
      rw [Nat.testBit_mod_two_pow, Nat.zero_testBit, Bool.and_eq_false_imp, decide_eq_true_eq]
      intro hj
      exact Bool.eq_false_iff.mpr (Nat.find_min hex hj)
    refine ⟨m / 2 ^ Nat.find hex, ?_, Nat.find hex, (Nat.div_mul_cancel hlow).symm⟩
    apply Nat.le_of_lt
    apply Nat.lt_pow_two_of_testBit
    intro j hj
    rw [Nat.testBit_div_two_pow]
    by_contra hset
    have := h _ _ (Nat.find_spec hex) (Bool.not_eq_false _ ▸ hset)
    omega

theorem dvd_of_mul_two_pow (h : a * 2 ^ e ∣ b * 2 ^ e) : a ∣ b :=
  Nat.dvd_of_mul_dvd_mul_right (Nat.two_pow_pos e) h

theorem log2_mul_two_pow (hm : m ≠ 0) (e : Nat) : (m * 2 ^ e).log2 = m.log2 + e := by
  have hlow := Nat.mul_le_mul_right (2 ^ e) (Nat.log2_self_le hm)
  have hup := Nat.mul_lt_mul_of_pos_right (Nat.lt_log2_self (n := m)) (Nat.two_pow_pos e)
  rw [← Nat.pow_add] at hlow hup
  rw [Nat.log2_eq_iff (Nat.mul_ne_zero hm (Nat.ne_of_gt (Nat.two_pow_pos e)))]
  exact ⟨hlow, by rwa [Nat.add_right_comm] at hup⟩

theorem near_natCast_iff (m : Nat) : near (m * one) = m * one ↔
    ∀ i j, m.testBit i = true → m.testBit j = true → j ≤ i + 52 := by
  constructor
  · intro h i j hi hj
    have hm : m ≠ 0 := by
      rintro rfl
      simp at hi
    have hunits : ((m : Int) * one).natAbs = m * 2 ^ 1074 := by
      rw [Int.natAbs_mul, one, natAbs_two_pow]
      rfl
    have hlog : (m * 2 ^ 1074).log2 = m.log2 + 1074 := log2_mul_two_pow hm _
    have hdvd : 2 ^ (m.log2 + 1074 - 52) ∣ m * 2 ^ 1074 := by
      have hn := congrArg Int.natAbs h
      rw [natAbs_near, hunits, roundUnits, Nat.div_one, spacing, hlog] at hn
      exact Dvd.intro_left _ hn
    have hj' : j ≤ m.log2 := (Nat.le_log2 hm).mpr (Nat.ge_two_pow_of_testBit hj)
    by_contra hlt
    rw [show m.log2 + 1074 - 52 = (m.log2 - 52) + 1074 by omega, Nat.pow_add] at hdvd
    generalize 1074 = u at hdvd
    obtain ⟨k, hk⟩ := dvd_of_mul_two_pow hdvd
    rw [hk, Nat.testBit_two_pow_mul, Bool.and_eq_true, decide_eq_true_eq] at hi
    omega
  · intro h
    obtain ⟨k, hk, e, rfl⟩ := exists_significand h
    have hexact := near_exact (n := k) (by simpa using hk) (e + 1074)
    rw [Int.pow_add, ← Int.mul_assoc] at hexact
    rwa [Int.natCast_mul, Int.natCast_pow, one]

def roundInt (n : Int) : Int := near (n * one) / one

theorem near_units (n : Int) : near (n * one) = roundInt n * one :=
  (Int.ediv_mul_cancel (one_dvd_near n)).symm

theorem roundInt_mono (h : m ≤ n) : roundInt m ≤ roundInt n := by
  have hmono := near_mono (units_le_units.mpr h)
  rwa [near_units, near_units, units_le_units] at hmono

theorem units_inj_int {m n : Int} (h : m * one = n * one) : m = n :=
  Int.eq_of_mul_eq_mul_right (Int.ne_of_gt one_pos) h

theorem roundInt_scaled (h : n.natAbs ≤ 2 ^ 53) (e : Nat) : roundInt (n * 2 ^ e) = n * 2 ^ e := by
  have hexact := near_exact h (e + 1074)
  rw [Int.pow_add, ← Int.mul_assoc] at hexact
  exact units_inj_int ((near_units _).symm.trans hexact)

theorem roundInt_small (h : n.natAbs ≤ 2 ^ 53) : roundInt n = n := by
  have hexact := roundInt_scaled h 0
  rwa [Int.pow_zero, Int.mul_one] at hexact

theorem roundInt_two_pow (e : Nat) : roundInt (2 ^ e) = 2 ^ e := by
  have hexact := roundInt_scaled (n := 1) (by decide) e
  rwa [Int.one_mul] at hexact

theorem roundInt_neg_two_pow (e : Nat) : roundInt (-2 ^ e) = -2 ^ e := by
  have hexact := roundInt_scaled (n := -1) (by decide) e
  rwa [Int.neg_mul, Int.one_mul] at hexact

@[simp] theorem roundInt_idem (n : Int) : roundInt (roundInt n) = roundInt n := by
  have hidem := near_near (n * one)
  rw [near_units, near_units] at hidem
  exact units_inj_int hidem

theorem natAbs_roundInt (h : n.natAbs ≤ 2 ^ e) : (roundInt n).natAbs ≤ 2 ^ e := by
  have hcast : ((2 ^ e : Nat) : Int) = 2 ^ e := Int.natCast_pow 2 e
  have hup := roundInt_mono (show n ≤ 2 ^ e by omega)
  have hlow := roundInt_mono (show -2 ^ e ≤ n by omega)
  rw [roundInt_two_pow] at hup
  rw [roundInt_neg_two_pow] at hlow
  omega

theorem roundInt_pos : 0 < roundInt n ↔ 0 < n := by
  constructor
  · intro h
    by_contra hn
    have hmono := roundInt_mono (Int.not_lt.mp hn)
    rw [roundInt_small (n := 0) (by decide)] at hmono
    omega
  · intro h
    have hmono := roundInt_mono (Int.add_one_le_of_lt h)
    rw [Int.zero_add, roundInt_small (n := 1) (by decide)] at hmono
    omega

theorem roundInt_lt_zero : roundInt n < 0 ↔ n < 0 := by
  constructor
  · intro h
    by_contra hn
    have hmono := roundInt_mono (Int.not_lt.mp hn)
    rw [roundInt_small (n := 0) (by decide)] at hmono
    omega
  · intro h
    have hmono := roundInt_mono (show n ≤ -1 by omega)
    rw [roundInt_small (n := -1) (by decide)] at hmono
    omega

theorem sign_roundInt (n : Int) : (roundInt n).sign = n.sign := by
  rcases Int.lt_trichotomy n 0 with h | rfl | h
  · rw [Int.sign_eq_neg_one_of_neg h, Int.sign_eq_neg_one_of_neg (roundInt_lt_zero.mpr h)]
  · rw [roundInt_small (by decide)]
  · rw [Int.sign_eq_one_of_pos h, Int.sign_eq_one_of_pos (roundInt_pos.mpr h)]

theorem ofI64_roundInt (i : I64) : ofI64 i = ofInt (roundInt i.val) := by
  rw [ofI64_near, near_units, ofInt]

theorem ofInt_inj {m n : Int} : ofInt m = ofInt n ↔ m = n :=
  ⟨fun h => units_inj_int (fin.inj h), fun h => h ▸ rfl⟩

theorem ofInt_add (h : (m + n).natAbs ≤ 2 ^ 66) :
    (ofInt m).add (ofInt n) = ofInt (roundInt (m + n)) := by
  have hsum : m * one + n * one = (m + n) * one := (Int.add_mul ..).symm
  rw [ofInt, ofInt, add_fin (hsum ▸ natAbs_units h) (by decide), hsum, near_units, ofInt]

theorem ofInt_sub (h : (m - n).natAbs ≤ 2 ^ 66) :
    (ofInt m).sub (ofInt n) = ofInt (roundInt (m - n)) := by
  have hdiff : m * one - n * one = (m - n) * one := (Int.sub_mul ..).symm
  rw [ofInt, ofInt, sub_fin (hdiff ▸ natAbs_units h) (by decide), hdiff, near_units, ofInt]

theorem natAbs_mul_one (n : Int) : (n * one).natAbs = n.natAbs * 2 ^ 1074 := by
  rw [Int.natAbs_mul, one, natAbs_two_pow]

theorem roundInt_gap (hm : roundInt m = m) (hn : roundInt n = n) (h : m.natAbs < n.natAbs) :
    n.natAbs ≤ 2 ^ 53 * (n.natAbs - m.natAbs) := by
  have hkept : ∀ {i : Int}, roundInt i = i →
      spacing (i.natAbs * 2 ^ 1074) ∣ i.natAbs * 2 ^ 1074 := by
    intro i hi
    have habs := natAbs_near (i * one)
    rw [near_units, hi, natAbs_mul_one, roundUnits, Nat.div_one] at habs
    exact Dvd.intro_left _ habs.symm
  have hkm := hkept hm
  have hkn := hkept hn
  generalize 1074 = u at hkm hkn
  have hgap := spacing_gap hkm hkn (Nat.mul_lt_mul_of_pos_right h (Nat.two_pow_pos u))
  rw [← Nat.sub_mul, ← Nat.mul_assoc] at hgap
  exact Nat.le_of_mul_le_mul_right hgap (Nat.two_pow_pos _)

end Datum

end AScript.Lib
