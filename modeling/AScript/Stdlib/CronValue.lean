import AScript.Lib.Rounding
import AScript.Stdlib.Cron

namespace AScript.Stdlib.Cron

open AScript.Lib
open AScript.Lib.Datum (one ofI64 near)
open AScript.Stdlib.Semver (Text)

/-- What `schedule_from_object` tells apart in a field. -/
inductive Slot
  | str (s : Text)
  | bool (b : Bool)
  | int (i : I64)
  | float (d : Datum)
  | other
  deriving DecidableEq

abbrev Object := List (String × Slot)

def Slot.asF64 : Slot → Option Datum
  | .int i => some (ofI64 i)
  | .float d => some d
  | _ => none

/-- `m as f64` for an unsigned `m`. -/
def ofMask (m : BitVec w) : Datum := .round (m.toNat * one) 1

/-- `d as u64`, `as u32`, …: truncated, saturating, a nan to zero. -/
def toMask (w : Nat) : Datum → BitVec w
  | .nan => 0#w
  | .inf negative => if negative then 0#w else BitVec.allOnes w
  | .fin n =>
    if n.tdiv one < 0 then 0#w
    else if 2 ^ w ≤ n.tdiv one then BitVec.allOnes w
    else BitVec.ofInt w (n.tdiv one)

def scheduleValue (expr : Text) (sched : CronSchedule) : Object :=
  [("__cron", .str "schedule".toList),
    ("expr", .str expr),
    ("minutes", .float (ofMask sched.minutes)),
    ("hours", .float (ofMask sched.hours)),
    ("dom", .float (ofMask sched.dom)),
    ("months", .float (ofMask sched.months)),
    ("dow", .float (ofMask sched.dow)),
    ("domRestricted", .bool sched.domRestricted),
    ("dowRestricted", .bool sched.dowRestricted)]

def isTrue (v : Option Slot) : Bool := v == some (.bool true)

def scheduleFromObject (o : Object) : Option CronSchedule :=
  let f := fun k => (o.lookup k).bind Slot.asF64
  match o.lookup "__cron" with
  | some (.str s) =>
    if s ≠ "schedule".toList then none
    else do
      let minutes ← f "minutes"
      let hours ← f "hours"
      let dom ← f "dom"
      let months ← f "months"
      let dow ← f "dow"
      some {
        minutes := toMask 64 minutes
        hours := toMask 32 hours
        dom := toMask 32 dom
        months := toMask 16 months
        dow := toMask 8 dow
        domRestricted := isTrue (o.lookup "domRestricted")
        dowRestricted := isTrue (o.lookup "dowRestricted") }
  | _ => none

def throughFloat (m : BitVec w) : BitVec w := toMask w (ofMask m)

theorem scheduleFromObject_value (expr : Text) (sched : CronSchedule) :
    scheduleFromObject (scheduleValue expr sched) = some {
      minutes := throughFloat sched.minutes
      hours := throughFloat sched.hours
      dom := throughFloat sched.dom
      months := throughFloat sched.months
      dow := throughFloat sched.dow
      domRestricted := sched.domRestricted
      dowRestricted := sched.dowRestricted } := by
  have hb (b : Bool) : isTrue (some (.bool b)) = b := by cases b <;> rfl
  simp [scheduleFromObject, scheduleValue, List.lookup_cons, Slot.asF64, throughFloat, hb]

theorem ofMask_near (m : BitVec w) (hw : w ≤ 64) : ofMask m = .fin (near (m.toNat * one)) := by
  have hm : m.toNat ≤ 2 ^ 64 :=
    Nat.le_of_lt (m.isLt.trans_le (Nat.pow_le_pow_right (by decide) hw))
  exact Datum.round_near (Datum.natAbs_units hm) (by decide)

theorem toMask_natCast (hk : k < 2 ^ w) :
    toMask w (.fin ((k : Nat) * one)) = BitVec.ofNat w k := by
  have hdiv : ((k : Int) * one).tdiv one = k :=
    Int.mul_tdiv_cancel _ (Int.ne_of_gt Datum.one_pos)
  have hlt : (k : Int) < 2 ^ w := by exact_mod_cast hk
  rw [toMask, hdiv, if_neg (by omega), if_neg (Int.not_le.mpr hlt), BitVec.ofInt_natCast]

theorem near_natCast (hm : m ≤ 2 ^ e) : ∃ k ≤ 2 ^ e, near ((m : Nat) * one) = (k : Nat) * one := by
  obtain ⟨k, hk⟩ := Datum.one_dvd_near m
  have hlow : near (0 * one) ≤ near (m * one) :=
    Datum.near_mono (Datum.units_le_units.mpr (by omega))
  have hup : near (1 * 2 ^ e * one) ≥ near (m * one) :=
    Datum.near_mono (Datum.units_le_units.mpr (by rw [Int.one_mul]; exact_mod_cast hm))
  rw [Datum.near_ofInt (by simp)] at hlow
  rw [one, Int.mul_assoc, ← Int.pow_add, Datum.near_exact (by simp), Int.pow_add, ← Int.mul_assoc,
    Int.one_mul, ← one, hk, Int.mul_comm one] at hup
  rw [hk, Int.mul_comm one] at hlow
  have hk0 := Datum.units_le_units.mp hlow
  have hke := Datum.units_le_units.mp hup
  refine ⟨k.toNat, ?_, by rw [hk, Int.toNat_of_nonneg hk0, Int.mul_comm]⟩
  rw [Int.toNat_le]
  exact_mod_cast hke

theorem throughFloat_near (m : BitVec w) (hw : w ≤ 64) (hm : m.toNat ≤ 2 ^ e) (he : e < w) :
    throughFloat m = m ↔ near (m.toNat * one) = m.toNat * one := by
  rw [throughFloat, ofMask_near m hw]
  constructor
  · intro h
    obtain ⟨k, hk, hnear⟩ := near_natCast hm
    have hlt : k < 2 ^ w := hk.trans_lt (Nat.pow_lt_pow_right (by decide) he)
    rw [hnear, toMask_natCast hlt] at h
    rw [hnear, ← h, BitVec.toNat_ofNat, Nat.mod_eq_of_lt hlt]
  · intro h
    rw [h, toMask_natCast m.isLt, BitVec.ofNat_toNat, BitVec.setWidth_eq]

theorem throughFloat_small (m : BitVec w) (hw : w ≤ 53) : throughFloat m = m := by
  have hm : m.toNat ≤ 2 ^ 53 :=
    Nat.le_of_lt (m.isLt.trans_le (Nat.pow_le_pow_right (by decide) hw))
  rw [throughFloat, ofMask_near m (by omega), Datum.near_ofInt (by simpa using hm),
    toMask_natCast m.isLt, BitVec.ofNat_toNat, BitVec.setWidth_eq]

theorem throughFloat_minutes (m : BitVec 64) (hm : ∀ j, m.getLsbD j = true → j ≤ 59) :
    throughFloat m = m ↔
      ∀ i j, m.getLsbD i = true → m.getLsbD j = true → j ≤ i + 52 := by
  have hlt : m.toNat < 2 ^ 60 := by
    apply Nat.lt_pow_two_of_testBit
    intro j hj
    by_contra h
    have := hm j (Bool.not_eq_false _ ▸ h)
    omega
  rw [throughFloat_near m (by decide) (Nat.le_of_lt hlt) (by decide), Datum.near_natCast_iff]
  rfl

theorem parse_minutes (h : CronSchedule.parse fuel expr = .ok s) (j : Nat)
    (hj : s.minutes.getLsbD j = true) : j ≤ 59 := by
  unfold CronSchedule.parse at h
  split at h
  · obtain ⟨minutes, hmin, h⟩ := bind_ok.mp h
    obtain ⟨_, -, h⟩ := bind_ok.mp h
    obtain ⟨_, -, h⟩ := bind_ok.mp h
    obtain ⟨_, -, h⟩ := bind_ok.mp h
    obtain ⟨_, -, h⟩ := bind_ok.mp h
    cases h
    exact parseField_le hmin hj
  · cases h

/-- A parsed schedule comes back from its object exactly when no two of its minutes are more
than 52 apart. -/
theorem schedule_value_round_trip_iff (h : CronSchedule.parse fuel expr = .ok sched) :
    scheduleFromObject (scheduleValue expr sched) = some sched ↔
      ∀ i j, sched.minutes.getLsbD i = true → sched.minutes.getLsbD j = true → j ≤ i + 52 := by
  rw [scheduleFromObject_value, throughFloat_small sched.hours (by decide),
    throughFloat_small sched.dom (by decide), throughFloat_small sched.months (by decide),
    throughFloat_small sched.dow (by decide), ← throughFloat_minutes _ (parse_minutes h)]
  constructor
  · intro h
    have hminutes := congrArg CronSchedule.minutes (Option.some.inj h)
    dsimp only at hminutes
    exact hminutes
  · intro h
    rw [h]

/-- The minutes 0 and 52 of `0,52 0 1 1 0`. -/
theorem schedule_value_round_trip_edge :
    CronSchedule.parse 66 "0,52 0 1 1 0".toList = .ok ⟨0x10000000000001, 1, 2, 2, 1, true, true⟩ ∧
      (scheduleFromObject (scheduleValue "0,52 0 1 1 0".toList
          ⟨0x10000000000001, 1, 2, 2, 1, true, true⟩) =
        some ⟨0x10000000000001, 1, 2, 2, 1, true, true⟩ ↔
        ∀ i j, (0x10000000000001 : BitVec 64).getLsbD i = true →
          (0x10000000000001 : BitVec 64).getLsbD j = true → j ≤ i + 52) := by
  have h : CronSchedule.parse 66 "0,52 0 1 1 0".toList =
      .ok ⟨0x10000000000001, 1, 2, 2, 1, true, true⟩ := by decide
  exact ⟨h, schedule_value_round_trip_iff h⟩

/-- Every minute, `* * * * *`, comes back as none of them. -/
theorem every_minute_lost : ¬∀ fuel expr sched, CronSchedule.parse fuel expr = .ok sched →
    scheduleFromObject (scheduleValue expr sched) = some sched := by
  intro h
  have hp : CronSchedule.parse 66 "* * * * *".toList =
      .ok ⟨0xfffffffffffffff, 0xffffff, 0xfffffffe, 0x1ffe, 0x7f, false, false⟩ := by decide
  have hspan := (schedule_value_round_trip_iff hp).mp (h 66 _ _ hp) 0 59 (by decide) (by decide)
  omega

end AScript.Stdlib.Cron
