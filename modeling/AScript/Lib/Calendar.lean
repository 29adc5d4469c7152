import Mathlib.Data.Int.Init
import Mathlib.Logic.Function.Iterate
import Mathlib.Tactic.Common

namespace AScript.Lib.Calendar

def isLeap (year : Int) : Bool :=
  year % 4 = 0 && (year % 100 ≠ 0 || year % 400 = 0)

def daysInMonth (year : Int) : Nat → Nat
  | 2 => if isLeap year then 29 else 28
  | 4 | 6 | 9 | 11 => 30
  | _ => 31

theorem daysInMonth_pos (year : Int) (month : Nat) : 0 < daysInMonth year month := by
  unfold daysInMonth
  split
  · split <;> decide
  all_goals decide

theorem daysInMonth_le (year : Int) (month : Nat) : daysInMonth year month ≤ 31 := by
  unfold daysInMonth
  split
  · split <;> decide
  all_goals decide

@[ext]
structure Date where
  year : Int
  month : Nat
  day : Nat
  month_pos : 1 ≤ month
  month_le : month ≤ 12
  day_pos : 1 ≤ day
  day_le : day ≤ daysInMonth year month

namespace Date

def first (year : Int) (month : Nat) (pos : 1 ≤ month) (le : month ≤ 12) : Date :=
  ⟨year, month, 1, pos, le, Nat.le_refl 1, daysInMonth_pos year month⟩

def nextMonth (d : Date) : Date :=
  if h : d.month = 12 then first (d.year + 1) 1 (by decide) (by decide)
  else first d.year (d.month + 1) (by omega) (by have := d.month_le; omega)

def succ (d : Date) : Date :=
  if h : d.day < daysInMonth d.year d.month then
    { d with day := d.day + 1, day_pos := by omega, day_le := h }
  else d.nextMonth

def prevMonth (d : Date) : Date :=
  if h : d.month = 1 then ⟨d.year - 1, 12, 31, by decide, by decide, by decide, Nat.le_refl 31⟩
  else
    ⟨d.year, d.month - 1, daysInMonth d.year (d.month - 1), by have := d.month_pos; omega,
      by have := d.month_le; omega, daysInMonth_pos _ _, Nat.le_refl _⟩

def pred (d : Date) : Date :=
  if h : d.day = 1 then d.prevMonth
  else
    { d with
      day := d.day - 1
      day_pos := by have := d.day_pos; omega
      day_le := by have := d.day_le; omega }

theorem succ_of_lt {d : Date} (h : d.day < daysInMonth d.year d.month) :
    d.succ.year = d.year ∧ d.succ.month = d.month ∧ d.succ.day = d.day + 1 := by
  rw [succ, dif_pos h]
  exact ⟨rfl, rfl, rfl⟩

theorem succ_of_last {d : Date} (h : d.day = daysInMonth d.year d.month) :
    d.succ = d.nextMonth := by
  rw [succ, dif_neg (by omega)]

theorem succ_prevMonth (d : Date) :
    d.prevMonth.succ = first d.year d.month d.month_pos d.month_le := by
  have hpos := d.month_pos
  have hle := d.month_le
  by_cases h : d.month = 1
  · rw [succ_of_last (by simp [prevMonth, h, daysInMonth])]
    ext <;> simp [prevMonth, nextMonth, first, h]
  · have h' : d.month - 1 ≠ 12 := by omega
    rw [succ_of_last (by simp [prevMonth, h])]
    ext <;> simp [prevMonth, nextMonth, first, h, h']
    omega

theorem succ_pred (d : Date) : d.pred.succ = d := by
  have hpos := d.day_pos
  have hle := d.day_le
  by_cases h : d.day = 1
  · rw [pred, dif_pos h, succ_prevMonth]
    ext <;> simp [first, h]
  · have hlt : d.pred.day < daysInMonth d.pred.year d.pred.month := by
      simp only [pred, dif_neg h]
      omega
    obtain ⟨hy, hm, hd⟩ := succ_of_lt hlt
    ext
    · rw [hy, pred, dif_neg h]
    · rw [hm, pred, dif_neg h]
    · rw [hd, pred, dif_neg h]
      exact Nat.sub_add_cancel hpos

end Date

def epoch : Date := .first 1970 1 (by decide) (by decide)

def dateOf : Int → Date
  | .ofNat n => Date.succ^[n] epoch
  | .negSucc n => Date.pred^[n + 1] epoch

theorem dateOf_succ (n : Int) : dateOf (n + 1) = (dateOf n).succ := by
  cases n with
  | ofNat n => exact Function.iterate_succ_apply' _ _ _
  | negSucc n =>
    cases n with
    | zero => exact (Date.succ_pred epoch).symm
    | succ n =>
      rw [dateOf, Function.iterate_succ_apply', Date.succ_pred]
      rfl

/-- Days from `n` to the first of the next month. -/
def left (n : Int) : Nat := daysInMonth (dateOf n).year (dateOf n).month - (dateOf n).day + 1

theorem left_pos (n : Int) : 0 < left n := Nat.succ_pos _

theorem left_le (n : Int) : left n ≤ 31 := by
  have hle := daysInMonth_le (dateOf n).year (dateOf n).month
  have hpos := (dateOf n).day_pos
  have hday := (dateOf n).day_le
  unfold left
  omega

theorem dateOf_within (n : Int) (h : i < left n) :
    (dateOf (n + i)).year = (dateOf n).year ∧ (dateOf (n + i)).month = (dateOf n).month ∧
      (dateOf (n + i)).day = (dateOf n).day + i := by
  induction i with
  | zero => simp
  | succ i ih =>
    obtain ⟨hy, hm, hd⟩ := ih (by omega)
    have hle := (dateOf n).day_le
    have hlt : (dateOf (n + i)).day < daysInMonth (dateOf (n + i)).year (dateOf (n + i)).month := by
      rw [hy, hm, hd]
      unfold left at h
      omega
    obtain ⟨hy', hm', hd'⟩ := Date.succ_of_lt hlt
    rw [Int.natCast_succ, ← Int.add_assoc, dateOf_succ]
    exact ⟨hy'.trans hy, hm'.trans hm, by rw [hd', hd, Nat.add_assoc]⟩

theorem dateOf_left (n : Int) : dateOf (n + left n) = (dateOf n).nextMonth := by
  have hle := (dateOf n).day_le
  have hlt : left n - 1 < left n := Nat.sub_one_lt (Nat.ne_of_gt (left_pos n))
  obtain ⟨hy, hm, hd⟩ := dateOf_within n hlt
  have hcast : n + left n = n + (left n - 1 : Nat) + 1 := by omega
  rw [hcast, dateOf_succ, Date.succ_of_last]
  · simp only [Date.nextMonth, hy, hm]
  · rw [hy, hm, hd]
    unfold left
    omega

def daysBeforeYear (year : Int) : Int :=
  365 * (year - 1) + (year - 1) / 4 - (year - 1) / 100 + (year - 1) / 400

def daysBeforeMonth (year : Int) (month : Nat) : Nat :=
  (List.range' 1 (month - 1)).foldl (fun n m => n + daysInMonth year m) 0

def dayNumber (d : Date) : Int :=
  daysBeforeYear d.year + daysBeforeMonth d.year d.month + d.day - 1 - 719162

theorem daysBeforeYear_succ (year : Int) :
    daysBeforeYear (year + 1) = daysBeforeYear year + if isLeap year then 366 else 365 := by
  simp only [daysBeforeYear, isLeap, Bool.and_eq_true, Bool.or_eq_true, decide_eq_true_eq]
  split <;> omega

theorem daysBeforeMonth_succ (year : Int) (hm : 1 ≤ month) :
    daysBeforeMonth year (month + 1) = daysBeforeMonth year month + daysInMonth year month := by
  obtain ⟨m, rfl⟩ := Nat.exists_eq_add_of_le' hm
  rw [daysBeforeMonth, Nat.add_sub_cancel, List.range'_1_concat, List.foldl_append,
    Nat.add_comm 1 m]
  rfl

theorem daysBeforeMonth_twelve (year : Int) :
    daysBeforeMonth year 12 + 31 = if isLeap year then 366 else 365 := by
  unfold daysBeforeMonth
  split <;> simp [List.range', daysInMonth, *]

theorem dayNumber_nextMonth {d : Date} (h : d.day = daysInMonth d.year d.month) :
    dayNumber d.nextMonth = dayNumber d + 1 := by
  by_cases hm : d.month = 12
  · have hyear := daysBeforeYear_succ d.year
    have hmonth := daysBeforeMonth_twelve d.year
    have hday : d.day = 31 := by rw [h, hm]; rfl
    have hzero : daysBeforeMonth (d.year + 1) 1 = 0 := rfl
    simp only [Date.nextMonth, dif_pos hm, Date.first, dayNumber, hm, hday, hyear, hzero]
    split at hyear <;> simp_all <;> omega
  · have hmonth := daysBeforeMonth_succ d.year d.month_pos
    simp only [Date.nextMonth, dif_neg hm, Date.first, dayNumber, h, hmonth]
    omega

theorem dayNumber_succ (d : Date) : dayNumber d.succ = dayNumber d + 1 := by
  have hle := d.day_le
  by_cases h : d.day < daysInMonth d.year d.month
  · obtain ⟨hy, hm, hd⟩ := Date.succ_of_lt h
    rw [dayNumber, dayNumber, hy, hm, hd]
    omega
  · have hlast : d.day = daysInMonth d.year d.month := by omega
    rw [Date.succ_of_last hlast, dayNumber_nextMonth hlast]

theorem dayNumber_dateOf (n : Int) : dayNumber (dateOf n) = n := by
  induction n using Int.induction_on with
  | zero => rfl
  | succ n ih => rw [dateOf_succ, dayNumber_succ, ih]
  | pred n ih =>
    have h := dayNumber_succ (dateOf (-n - 1))
    rw [← dateOf_succ, Int.sub_add_cancel, ih] at h
    omega

end AScript.Lib.Calendar
