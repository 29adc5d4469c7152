import Mathlib.Algebra.Ring.Nat
import Mathlib.Data.List.Basic
import Mathlib.Data.Nat.Basic
import Mathlib.Order.Basic

namespace AScript.Lib.Measured

variable {α : Type*} {w : α → Nat} {s t : List α}

def width (w : α → Nat) : List α → Nat
  | [] => 0
  | a :: s => w a + width w s

def reach (w : α → Nat) (n : Nat) : List α → Nat
  | [] => 0
  | a :: s => if n = 0 then 0 else 1 + reach w (n - w a) s

@[simp] theorem width_nil : width w [] = 0 := rfl

@[simp] theorem width_cons (a : α) (s : List α) : width w (a :: s) = w a + width w s := rfl

@[simp] theorem width_append (s t : List α) : width w (s ++ t) = width w s + width w t := by
  induction s with
  | nil => simp
  | cons a s ih => rw [List.cons_append, width_cons, width_cons, ih, Nat.add_assoc]

@[simp] theorem reach_zero (s : List α) : reach w 0 s = 0 := by cases s <;> rfl

theorem reach_cons (hn : 0 < n) (a : α) (s : List α) :
    reach w n (a :: s) = 1 + reach w (n - w a) s := if_neg hn.ne'

theorem reach_le_length (n : Nat) (s : List α) : reach w n s ≤ s.length := by
  induction s generalizing n with
  | nil => exact le_rfl
  | cons a s ih =>
    have := ih (n - w a)
    rw [reach, List.length_cons]
    split <;> omega

theorem reach_append_le (h : n ≤ width w s) (t : List α) : reach w n (s ++ t) = reach w n s := by
  induction s generalizing n with
  | nil =>
    cases Nat.le_zero.mp h
    rw [reach_zero, reach_zero]
  | cons a s ih =>
    rw [width_cons] at h
    rw [List.cons_append, reach, reach, ih (by omega)]

theorem reach_append_ge (hw : ∀ a, 0 < w a) (h : width w s ≤ n) (t : List α) :
    reach w n (s ++ t) = s.length + reach w (n - width w s) t := by
  induction s generalizing n with
  | nil => simp
  | cons a s ih =>
    have := hw a
    rw [width_cons] at h
    rw [List.cons_append, reach_cons (by omega), ih (by omega), width_cons, List.length_cons,
      Nat.sub_sub]
    omega

theorem reach_width (hw : ∀ a, 0 < w a) (s t : List α) :
    reach w (width w s) (s ++ t) = s.length := by
  rw [reach_append_ge hw le_rfl, Nat.sub_self, reach_zero, Nat.add_zero]

theorem reach_mono (h : m ≤ n) (s : List α) : reach w m s ≤ reach w n s := by
  induction s generalizing m n with
  | nil => exact le_rfl
  | cons a s ih =>
    rcases Nat.eq_zero_or_pos m with rfl | hm
    · rw [reach_zero]
      exact Nat.zero_le _
    · rw [reach_cons hm, reach_cons (hm.trans_le h)]
      exact Nat.add_le_add_left (ih (Nat.sub_le_sub_right h (w a))) 1

theorem exists_reach (hn : 0 < n) (h : n ≤ width w s) :
    ∃ x a y, s = x ++ a :: y ∧ width w x < n ∧ n ≤ width w x + w a := by
  induction s generalizing n with
  | nil => exact absurd h (by simpa using hn.ne')
  | cons b s ih =>
    rw [width_cons] at h
    by_cases hb : n ≤ w b
    · exact ⟨[], b, s, rfl, hn, by simpa using hb⟩
    · obtain ⟨x, a, y, rfl, hlt, hle⟩ := ih (n := n - w b) (by omega) (by omega)
      exact ⟨b :: x, a, y, rfl, by rw [width_cons]; omega, by rw [width_cons]; omega⟩

end AScript.Lib.Measured
