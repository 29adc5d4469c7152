import Mathlib.Data.Nat.ModEq
import Mathlib.Tactic.Common

universe u

namespace AScript.Lib.Ring

variable {α : Type u}

/-- Record an entry, `n` having been recorded before. -/
def push (w n : Nat) (ring : List α) (a : α) : List α :=
  if ring.length < w then ring ++ [a] else ring.set (n % w) a

/-- Every entry among the last `w` stands in its slot. -/
structure Holds (w : Nat) (log ring : List α) : Prop where
  length : ring.length = min log.length w
  slot : ∀ j, j < log.length → log.length ≤ j + w → ring[j % w]? = log[j]?

theorem Holds.nil (w : Nat) : Holds w ([] : List α) [] where
  length := by simp
  slot _ h := by simp at h

theorem mod_ne {i j w : Nat} (h : i < j) (h' : j < i + w) : i % w ≠ j % w := by
  intro heq
  have hdvd : w ∣ j - i := (Nat.modEq_iff_dvd' (Nat.le_of_lt h)).mp heq
  have hle := Nat.le_of_dvd (by omega) hdvd
  omega

theorem Holds.push (hw : 0 < w) (h : Holds w log ring) (a : α) :
    Holds w (log ++ [a]) (push w log.length ring a) := by
  have hlen := h.length
  unfold Ring.push
  split
  next hlt =>
    have heq : ring.length = log.length := by omega
    refine ⟨by simp only [List.length_append, List.length_singleton]; omega, fun j hj hj' => ?_⟩
    simp only [List.length_append, List.length_singleton] at hj hj'
    rw [Nat.mod_eq_of_lt (by omega)]
    by_cases hlast : j < log.length
    · have hslot := h.slot j hlast (by omega)
      rw [Nat.mod_eq_of_lt (by omega)] at hslot
      rw [List.getElem?_append_left hlast, List.getElem?_append_left (by omega), hslot]
    · rw [List.getElem?_append_right (by omega), List.getElem?_append_right (by omega), heq]
  next hge =>
    have hmod := Nat.mod_lt log.length hw
    refine ⟨by simp only [List.length_set, List.length_append, List.length_singleton]; omega,
      fun j hj hj' => ?_⟩
    simp only [List.length_append, List.length_singleton] at hj hj'
    by_cases hlast : j < log.length
    · rw [List.getElem?_append_left hlast, List.getElem?_set_ne (mod_ne hlast (by omega)).symm]
      exact h.slot j hlast (by omega)
    · obtain rfl : j = log.length := by omega
      rw [List.getElem?_set_self (by omega), List.getElem?_concat_length]

theorem Holds.read (h : Holds w log ring) :
    ((List.range (min log.length w)).map fun i =>
      ring[((if min log.length w = w then log.length % w else 0) + i) % w]?) =
      (log.drop (log.length - w)).map some := by
  apply List.ext_getElem?
  intro i
  by_cases hi : i < min log.length w
  · have hslot := h.slot (log.length - w + i) (by omega) (by omega)
    have hidx : ((if min log.length w = w then log.length % w else 0) + i) % w =
        (log.length - w + i) % w := by
      split
      · rw [Nat.mod_add_mod, show log.length + i = (log.length - w + i) + w by omega,
          Nat.add_mod_right]
      · rw [show log.length - w + i = 0 + i by omega]
    simp only [List.getElem?_map, List.getElem?_range hi, Option.map_some, List.getElem?_drop, hidx,
      hslot]
    rw [List.getElem?_eq_getElem (by omega)]
    rfl
  · rw [List.getElem?_eq_none (by simp only [List.length_map, List.length_range]; omega),
      List.getElem?_eq_none (by simp only [List.length_map, List.length_drop]; omega)]

end AScript.Lib.Ring
