import Mathlib.Algebra.Order.Ring.Rat
import Mathlib.Data.Rat.Defs
import Mathlib.Order.WithBot
import Mathlib.Tactic.Linarith
import Mathlib.Tactic.Positivity
import Mathlib.Tactic.FieldSimp

namespace AScript.Lib

/-- A 64-bit signed integer. -/
structure I64 where
  val : Int
  lower : -2 ^ 63 ≤ val
  upper : val < 2 ^ 63
  deriving DecidableEq

def I64.zero : I64 := ⟨0, by decide, by decide⟩

theorem I64.ext {i j : I64} (h : i.val = j.val) : i = j := by
  cases i
  cases j
  cases h
  rfl

/-- Saturation of an integer to 64 bits. -/
def I64.sat (n : Int) : I64 :=
  if h : n < -2 ^ 63 then ⟨-2 ^ 63, by decide, by decide⟩
  else if h' : n < 2 ^ 63 then ⟨n, Int.not_lt.mp h, h'⟩
  else ⟨2 ^ 63 - 1, by decide, by decide⟩

theorem I64.sat_val (i : I64) : I64.sat i.val = i := by
  rw [I64.sat, dif_neg (Int.not_lt.mpr i.lower), dif_pos i.upper]

theorem I64.val_sat (h : -2 ^ 63 ≤ n) (h' : n < 2 ^ 63) : (I64.sat n).val = n := by
  rw [I64.sat, dif_neg (Int.not_lt.mpr h), dif_pos h']

def I64.wrap (n : Int) : I64 :=
  ⟨n.bmod (2 ^ 64), by have := @Int.le_bmod n (2 ^ 64) (by decide); omega,
    by have := @Int.bmod_lt n (2 ^ 64) (by decide); omega⟩

theorem I64.val_wrap (n : Int) : (I64.wrap n).val = n.bmod (2 ^ 64) := rfl

theorem I64.wrap_val (i : I64) : I64.wrap (i.val % 2 ^ 64) = i := by
  apply I64.ext
  have hl := i.lower
  have hu := i.upper
  show ((i.val % 2 ^ 64).bmod (2 ^ 64)) = i.val
  rw [Int.bmod_def]
  omega

def I64.bits (i : I64) : BitVec 64 := .ofInt 64 i.val

def I64.ofBits (b : BitVec 64) : I64 := .wrap b.toInt

/-- The rationals with both infinities. -/
abbrev ExtRat := WithBot (WithTop ℚ)

def ExtRat.ofRat (q : ℚ) : ExtRat := ((q : WithTop ℚ) : WithBot (WithTop ℚ))

theorem ExtRat.ofRat_inj {p q : ℚ} : ofRat p = ofRat q ↔ p = q := by
  simp [ofRat]

theorem ExtRat.ofRat_lt {p q : ℚ} : ofRat p < ofRat q ↔ p < q := by
  simp [ofRat]

theorem ExtRat.ofRat_lt_top (q : ℚ) : ofRat q < ⊤ := WithBot.coe_lt_coe.mpr (WithTop.coe_lt_top q)

theorem ExtRat.bot_lt_ofRat (q : ℚ) : ⊥ < ofRat q := WithBot.bot_lt_coe _

/-- A binary64 datum: not a number, an infinity, or a number of units of `2 ^ -1074`. -/
inductive Datum
  | nan
  | inf : (negative : Bool) → Datum
  | fin : (units : Int) → Datum
  deriving DecidableEq

namespace Datum

def one : Int := 2 ^ 1074

theorem one_pos : 0 < one := by
  unfold one
  positivity

def ofInt (n : Int) : Datum := .fin (n * one)

def isNan : Datum → Bool
  | .nan => true
  | _ => false

def isFinite : Datum → Bool
  | .fin _ => true
  | _ => false

def beq : Datum → Datum → Bool
  | .inf s, .inf t => s == t
  | .fin m, .fin n => m == n
  | _, _ => false

def lt : Datum → Datum → Bool
  | .nan, _ | _, .nan => false
  | .inf s, .inf t => s && !t
  | .inf s, .fin _ => s
  | .fin _, .inf t => !t
  | .fin m, .fin n => decide (m < n)

def le (a b : Datum) : Bool := lt a b || beq a b

def trunc : Datum → Datum
  | .fin n => .fin (n.tdiv one * one)
  | d => d

/-- `x - trunc x`, which binary64 represents exactly. -/
def fract : Datum → Datum
  | .fin n => .fin (n.tmod one)
  | _ => .nan

def toI64 : Datum → I64
  | .nan => .sat 0
  | .inf s => .sat (if s then -2 ^ 63 else 2 ^ 63)
  | .fin n => .sat (n.tdiv one)

def value : Datum → Option ExtRat
  | .nan => none
  | .inf true => some ⊥
  | .inf false => some ⊤
  | .fin n => some (.ofRat (n / one))

theorem one_pos_rat : (0 : ℚ) < one := by exact_mod_cast one_pos

theorem units_lt_iff (m n : Int) : (m / one : ℚ) < n / one ↔ m < n := by
  rw [div_lt_div_iff_of_pos_right one_pos_rat]
  exact_mod_cast Iff.rfl

theorem units_inj (m n : Int) : (m / one : ℚ) = n / one ↔ m = n := by
  rw [div_left_inj' one_pos_rat.ne']
  exact_mod_cast Iff.rfl

theorem ofInt_units (i : Int) : ((i * one : Int) / one : ℚ) = i := by
  push_cast
  exact mul_div_cancel_right₀ _ one_pos_rat.ne'

theorem value_ofInt (i : Int) : (ofInt i).value = some (.ofRat i) := by
  rw [ofInt, value, ofInt_units]

theorem beq_iff (a b : Datum) : beq a b = true ↔ ∃ x, a.value = some x ∧ b.value = some x := by
  cases a with
  | nan => simp [beq, value]
  | inf s =>
    cases b with
    | nan => simp [beq, value]
    | inf t => cases s <;> cases t <;> simp [beq, value]
    | fin n => cases s <;> simp [beq, value, ExtRat.ofRat]
  | fin m =>
    cases b with
    | nan => simp [beq, value]
    | inf t => cases t <;> simp [beq, value, ExtRat.ofRat]
    | fin n =>
      simp only [beq, value, beq_iff_eq, Option.some.injEq, exists_eq_left', ExtRat.ofRat_inj]
      rw [units_inj]
      exact eq_comm

theorem compare_ofRat (i n : Int) :
    compare (ExtRat.ofRat i) (ExtRat.ofRat (n / one)) = compare (i * one) n := by
  rw [← ofInt_units i]
  rcases lt_trichotomy (i * one) n with h | h | h
  · rw [compare_lt_iff_lt.mpr h, compare_lt_iff_lt, ExtRat.ofRat_lt, units_lt_iff]
    exact h
  · rw [h, compare_eq_iff_eq.mpr rfl]
    exact (compare_eq_iff_eq.mpr rfl).symm
  · rw [compare_gt_iff_gt.mpr h, compare_gt_iff_gt, ExtRat.ofRat_lt, units_lt_iff]
    exact h

theorem tdiv_mul_le {n : Int} (h : 0 ≤ n) : n.tdiv one * one ≤ n ∧ n < (n.tdiv one + 1) * one := by
  have h₁ := Int.tmod_add_tdiv_mul n one
  have h₂ := Int.tmod_nonneg one h
  have h₃ := Int.tmod_lt_of_pos n one_pos
  rw [add_mul]
  omega

theorem le_tdiv_mul {n : Int} (h : n ≤ 0) : n ≤ n.tdiv one * one ∧ (n.tdiv one - 1) * one < n := by
  have h₁ := tdiv_mul_le (n := -n) (by omega)
  rw [Int.neg_tdiv] at h₁
  rw [sub_mul]
  rw [add_mul, neg_mul] at h₁
  omega

theorem compare_tdiv (i n : Int) :
    (match compare i (n.tdiv one) with
      | .eq => if 0 < n.tmod one then .lt else if n.tmod one < 0 then .gt else .eq
      | o => o) = compare (i * one) n := by
  have hm := Int.tmod_add_tdiv_mul n one
  have hone := one_pos
  rcases lt_trichotomy i (n.tdiv one) with hi | hi | hi
  · rw [compare_lt_iff_lt.mpr hi]
    refine (compare_lt_iff_lt.mpr ?_).symm
    rcases le_total 0 n with hn | hn
    · have := tdiv_mul_le hn
      have := mul_lt_mul_of_pos_right hi hone
      omega
    · have := le_tdiv_mul hn
      have := mul_le_mul_of_nonneg_right (Int.le_sub_one_of_lt hi) hone.le
      omega
  · subst hi
    rw [compare_eq_iff_eq.mpr rfl]
    simp only
    split
    · exact (compare_lt_iff_lt.mpr (by omega)).symm
    · split
      · exact (compare_gt_iff_gt.mpr (by omega)).symm
      · exact (compare_eq_iff_eq.mpr (by omega)).symm
  · rw [compare_gt_iff_gt.mpr hi]
    refine (compare_gt_iff_gt.mpr ?_).symm
    rcases le_total 0 n with hn | hn
    · have := tdiv_mul_le hn
      have := mul_le_mul_of_nonneg_right (Int.add_one_le_of_lt hi) hone.le
      omega
    · have := le_tdiv_mul hn
      have := mul_lt_mul_of_pos_right hi hone
      omega

theorem value_eq_none {d : Datum} : d.value = none ↔ d = .nan := by
  cases d with
  | nan => simp [value]
  | inf s => cases s <;> simp [value]
  | fin n => simp [value]

theorem value_inj {a b : Datum} (h : a.value = b.value) : a = b := by
  cases ha : a.value with
  | none => rw [value_eq_none.mp ha, value_eq_none.mp (h.symm.trans ha)]
  | some x =>
    have hb : a.beq b = true := (beq_iff a b).mpr ⟨x, ha, h.symm.trans ha⟩
    match a, b with
    | .inf s, .inf t => exact congrArg _ (beq_iff_eq.mp hb)
    | .fin m, .fin n => exact congrArg _ (beq_iff_eq.mp hb)
    | .nan, _ => cases hb
    | .inf _, .fin _ => cases hb
    | .inf _, .nan => cases hb
    | .fin _, .nan => cases hb
    | .fin _, .inf _ => cases hb

theorem tdiv_bounds (h : -2 ^ 63 * one ≤ n) (h' : n < 2 ^ 63 * one) :
    -2 ^ 63 ≤ n.tdiv one ∧ n.tdiv one < 2 ^ 63 := by
  rcases le_total 0 n with hn | hn
  · have hq := Int.tdiv_nonneg hn one_pos.le
    have hu := lt_of_mul_lt_mul_right ((tdiv_mul_le hn).1.trans_lt h') one_pos.le
    omega
  · have hq := Int.tdiv_nonneg (neg_nonneg.mpr hn) one_pos.le
    rw [Int.neg_tdiv] at hq
    have hl := le_of_mul_le_mul_right (h.trans (le_tdiv_mul hn).1) one_pos
    omega

end Datum

/-- A binary64 bit pattern. -/
structure F64 where
  bits : BitVec 64
  deriving DecidableEq

namespace F64

def negative (f : F64) : Bool := f.bits.msb

def exponent (f : F64) : Nat := f.bits.toNat / 2 ^ 52 % 2 ^ 11

def mantissa (f : F64) : Nat := f.bits.toNat % 2 ^ 52

/-- The magnitude in units of `2 ^ -1074`. -/
def magnitude (e m : Nat) : Nat := if e = 0 then m else (2 ^ 52 + m) * 2 ^ (e - 1)

def decode (f : F64) : Datum :=
  if f.exponent = 2 ^ 11 - 1 then
    if f.mantissa = 0 then .inf f.negative else .nan
  else .fin (if f.negative then -(magnitude f.exponent f.mantissa : Int)
    else magnitude f.exponent f.mantissa)

def isNan (f : F64) : Bool := f.decode.isNan

def isFinite (f : F64) : Bool := f.decode.isFinite

def beq (f g : F64) : Bool := f.decode.beq g.decode

def lt (f g : F64) : Bool := f.decode.lt g.decode

def le (f g : F64) : Bool := f.decode.le g.decode

def toI64 (f : F64) : I64 := f.decode.toI64

def value (f : F64) : Option ExtRat := f.decode.value

/-- The quiet nan `f64::NAN`. -/
def canonicalNan : F64 := ⟨0x7ff8000000000000#64⟩

def zero : F64 := ⟨0#64⟩

def infinity : F64 := ⟨0x7ff0000000000000#64⟩

def negInfinity : F64 := ⟨0xfff0000000000000#64⟩

/-- `i64::MIN as f64`. -/
def i64Min : F64 := ⟨0xc3e0000000000000#64⟩

/-- `-(i64::MIN as f64)`. -/
def i64Sup : F64 := ⟨0x43e0000000000000#64⟩

theorem decode_zero : decode zero = .fin 0 := by decide

theorem decode_infinity : decode infinity = .inf false := by decide

theorem decode_negInfinity : decode negInfinity = .inf true := by decide

theorem decode_canonicalNan : decode canonicalNan = .nan := by decide

theorem magnitude_i64 : (magnitude 1086 0 : Int) = 2 ^ 63 * Datum.one := by
  rw [magnitude, if_neg (by decide), Datum.one, ← pow_add, Nat.add_zero, ← pow_add, Nat.cast_pow]
  rfl

theorem decode_i64Min : decode i64Min = .ofInt (-2 ^ 63) := by
  have he : exponent i64Min = 1086 := by decide
  have hm : mantissa i64Min = 0 := by decide
  have hs : negative i64Min = true := by decide
  rw [decode, he, hm, hs, if_neg (by decide), if_pos rfl, magnitude_i64, Datum.ofInt, neg_mul]

theorem decode_i64Sup : decode i64Sup = .ofInt (2 ^ 63) := by
  have he : exponent i64Sup = 1086 := by decide
  have hm : mantissa i64Sup = 0 := by decide
  have hs : negative i64Sup = false := by decide
  rw [decode, he, hm, hs, if_neg (by decide), if_neg (by decide), magnitude_i64, Datum.ofInt]

theorem magnitude_lt (he : e ≠ 0) (hm : m < 2 ^ 52) : magnitude e m < 2 ^ (52 + e) := by
  obtain ⟨k, rfl⟩ := Nat.exists_eq_succ_of_ne_zero he
  rw [magnitude, if_neg he]
  calc (2 ^ 52 + m) * 2 ^ k < (2 ^ 52 + 2 ^ 52) * 2 ^ k :=
        Nat.mul_lt_mul_of_pos_right (by omega) (by positivity)
    _ = 2 ^ (52 + (k + 1)) := by rw [← Nat.two_mul, ← pow_succ', ← pow_add]; congr 1; omega

theorem le_magnitude (he : e ≠ 0) : 2 ^ (51 + e) ≤ magnitude e m := by
  obtain ⟨k, rfl⟩ := Nat.exists_eq_succ_of_ne_zero he
  rw [magnitude, if_neg he]
  calc 2 ^ (51 + (k + 1)) = 2 ^ 52 * 2 ^ k := by rw [← pow_add]; congr 1; omega
    _ ≤ (2 ^ 52 + m) * 2 ^ k := Nat.mul_le_mul_right _ (by omega)

theorem magnitude_lt_of_exponent_lt (he : e < e') (hm : m < 2 ^ 52) (m' : Nat) :
    magnitude e m < magnitude e' m' := by
  have hl := le_magnitude (e := e') (m := m') (by omega)
  by_cases h0 : e = 0
  · subst h0
    have hp : 2 ^ 52 ≤ 2 ^ (51 + e') := Nat.pow_le_pow_right (by decide) (by omega)
    rw [magnitude, if_pos rfl]
    omega
  · have hp : 2 ^ (52 + e) ≤ 2 ^ (51 + e') := Nat.pow_le_pow_right (by decide) (by omega)
    have := magnitude_lt h0 hm
    omega

theorem magnitude_inj (hm : m < 2 ^ 52) (hm' : m' < 2 ^ 52)
    (h : magnitude e m = magnitude e' m') : e = e' ∧ m = m' := by
  rcases Nat.lt_trichotomy e e' with he | he | he
  · have := magnitude_lt_of_exponent_lt he hm m'
    omega
  · subst he
    refine ⟨rfl, ?_⟩
    by_cases h0 : e = 0
    · simpa [magnitude, h0] using h
    · simp only [magnitude, h0, if_false] at h
      have := Nat.eq_of_mul_eq_mul_right (by positivity) h
      omega
  · have := magnitude_lt_of_exponent_lt he hm' m
    omega

theorem mantissa_lt (f : F64) : f.mantissa < 2 ^ 52 := Nat.mod_lt _ (by positivity)

theorem ext_fields {f g : F64} (hs : f.negative = g.negative) (he : f.exponent = g.exponent)
    (hm : f.mantissa = g.mantissa) : f = g := by
  obtain ⟨b⟩ := f
  obtain ⟨c⟩ := g
  congr 1
  apply BitVec.eq_of_toNat_eq
  simp only [negative, BitVec.msb_eq_decide, decide_eq_decide] at hs
  simp only [exponent, mantissa] at he hm
  omega

theorem fields_of_decode_inf {f : F64} (h : f.decode = .inf s) :
    f.exponent = 2 ^ 11 - 1 ∧ f.mantissa = 0 ∧ f.negative = s := by
  unfold decode at h
  by_cases he : f.exponent = 2 ^ 11 - 1
  · rw [if_pos he] at h
    by_cases hm : f.mantissa = 0
    · rw [if_pos hm] at h
      exact ⟨he, hm, Datum.inf.inj h⟩
    · rw [if_neg hm] at h
      cases h
  · rw [if_neg he] at h
    cases h

theorem units_of_decode_fin {f : F64} (h : f.decode = .fin n) :
    n = if f.negative then -(magnitude f.exponent f.mantissa : Int)
      else magnitude f.exponent f.mantissa := by
  unfold decode at h
  by_cases he : f.exponent = 2 ^ 11 - 1
  · rw [if_pos he] at h
    by_cases hm : f.mantissa = 0
    · rw [if_pos hm] at h
      cases h
    · rw [if_neg hm] at h
      cases h
  · rw [if_neg he] at h
    exact (Datum.fin.inj h).symm

theorem decode_inj {f g : F64} (h : f.decode = g.decode) (hn : f.decode ≠ .nan)
    (h0 : f.decode ≠ .fin 0) : f = g := by
  cases hf : f.decode with
  | nan => exact absurd hf hn
  | inf s =>
    obtain ⟨he, hm, hs⟩ := fields_of_decode_inf hf
    obtain ⟨he', hm', hs'⟩ := fields_of_decode_inf (h.symm.trans hf)
    exact ext_fields (hs.trans hs'.symm) (he.trans he'.symm) (hm.trans hm'.symm)
  | fin n =>
    have hu := units_of_decode_fin hf
    have hu' := units_of_decode_fin (h.symm.trans hf)
    have hne : n ≠ 0 := fun hz => h0 (by rw [hf, hz])
    have hmag : magnitude f.exponent f.mantissa = magnitude g.exponent g.mantissa := by
      split at hu <;> split at hu' <;> omega
    obtain ⟨he, hm⟩ := magnitude_inj (mantissa_lt f) (mantissa_lt g) hmag
    refine ext_fields ?_ he hm
    cases hsf : f.negative <;> cases hsg : g.negative <;> simp only [hsf, hsg] at hu hu' ⊢ <;>
      simp only [Bool.false_eq_true, if_true, if_false] at hu hu' <;> omega

end F64
end AScript.Lib
