import Mathlib.Tactic.Common

namespace AScript.Lib

/-- Each read gives some of what is left, from its front, and nothing only where nothing is left. -/
structure Source (α : Type) where
  State : Type
  left : State → List α
  read : State → Nat → List α × State
  read_append : ∀ s n, (read s n).1 ++ left (read s n).2 = left s
  read_le : ∀ s n, (read s n).1.length ≤ n
  read_ne_nil : ∀ s n, 0 < n → left s ≠ [] → (read s n).1 ≠ []

namespace Source

variable {src : Source α} {s : src.State}

theorem read_nil (h : src.left s = []) :
    (src.read s n).1 = [] ∧ src.left (src.read s n).2 = [] := by
  have happ := src.read_append s n
  rw [h] at happ
  exact List.append_eq_nil_iff.mp happ

theorem read_one (h : src.left s = b :: rest) :
    (src.read s 1).1 = [b] ∧ src.left (src.read s 1).2 = rest := by
  have happ := src.read_append s 1
  have hle := src.read_le s 1
  have hne := src.read_ne_nil s 1 Nat.one_pos (by rw [h]; nofun)
  obtain ⟨c, hc⟩ : ∃ c, (src.read s 1).1 = [c] :=
    List.length_eq_one_iff.mp (by have := List.length_pos_iff.mpr hne; omega)
  rw [hc, h, List.singleton_append] at happ
  cases happ
  exact ⟨hc, rfl⟩

end Source

structure Buffered (α : Type) where
  buffer : List α
  pieces : List (List α)
  ne_nil : ∀ piece ∈ pieces, piece ≠ []

namespace Buffered

def left (b : Buffered α) : List α := b.buffer ++ b.pieces.flatten

def deliver (n : Nat) : List (List α) → List α × List (List α)
  | [] => ([], [])
  | piece :: pieces =>
    (piece.take n, if piece.drop n = [] then pieces else piece.drop n :: pieces)

theorem deliver_ne_nil {pieces : List (List α)} (h : ∀ piece ∈ pieces, piece ≠ []) (n : Nat) :
    ∀ piece ∈ (deliver n pieces).2, piece ≠ [] := by
  cases pieces with
  | nil => exact h
  | cons piece pieces =>
    intro q hq
    rw [deliver] at hq
    dsimp only at hq
    split at hq
    · exact h q (List.mem_cons_of_mem _ hq)
    next hne =>
      obtain rfl | hq := List.mem_cons.mp hq
      · exact hne
      · exact h q (List.mem_cons_of_mem _ hq)

def fetch (b : Buffered α) (n : Nat) : List α × Buffered α :=
  ((deliver n b.pieces).1, ⟨[], (deliver n b.pieces).2, deliver_ne_nil b.ne_nil n⟩)

def take (b : Buffered α) (n : Nat) : List α × Buffered α :=
  (b.buffer.take n, { b with buffer := b.buffer.drop n })

def read (capacity : Nat) (b : Buffered α) (n : Nat) : List α × Buffered α :=
  if b.buffer.isEmpty then
    if capacity ≤ n then b.fetch n
    else
      let (got, b) := b.fetch capacity
      { b with buffer := got }.take n
  else b.take n

theorem deliver_append (n : Nat) (pieces : List (List α)) :
    (deliver n pieces).1 ++ (deliver n pieces).2.flatten = pieces.flatten := by
  cases pieces with
  | nil => rfl
  | cons piece pieces =>
    rw [deliver]
    split
    next h =>
      have hlen := List.drop_eq_nil_iff.mp h
      rw [List.take_of_length_le hlen, List.flatten_cons]
    next => rw [List.flatten_cons, List.flatten_cons, ← List.append_assoc, List.take_append_drop]

theorem deliver_le (n : Nat) (pieces : List (List α)) : (deliver n pieces).1.length ≤ n := by
  cases pieces with
  | nil => exact Nat.zero_le n
  | cons piece pieces => exact List.length_take_le n piece

theorem deliver_fst_ne_nil {pieces : List (List α)} (h : ∀ piece ∈ pieces, piece ≠ [])
    (hn : 0 < n) (hne : pieces.flatten ≠ []) : (deliver n pieces).1 ≠ [] := by
  cases pieces with
  | nil => exact absurd rfl hne
  | cons piece pieces =>
    have hpiece := h piece List.mem_cons_self
    rw [deliver, Ne, List.take_eq_nil_iff]
    exact not_or.mpr ⟨Nat.ne_of_gt hn, hpiece⟩

theorem fetch_left (b : Buffered α) (n : Nat) (h : b.buffer = []) :
    (b.fetch n).1 ++ (b.fetch n).2.left = b.left := by
  have hleft : b.left = b.pieces.flatten := by rw [left, h, List.nil_append]
  rw [hleft]
  exact deliver_append n b.pieces

theorem take_ne_nil {b : Buffered α} (hn : 0 < n) (h : b.buffer ≠ []) : (b.take n).1 ≠ [] := by
  rw [take, Ne, List.take_eq_nil_iff]
  exact not_or.mpr ⟨Nat.ne_of_gt hn, h⟩

theorem take_left (b : Buffered α) (n : Nat) : (b.take n).1 ++ (b.take n).2.left = b.left := by
  simp only [take, left]
  rw [← List.append_assoc, List.take_append_drop]

def source (capacity : Nat) (hc : 0 < capacity) : Source α where
  State := Buffered α
  left := left
  read := read capacity
  read_append b n := by
    unfold read
    split
    next h =>
      have hnil := List.isEmpty_iff.mp h
      split
      · exact b.fetch_left n hnil
      · refine (take_left _ n).trans ?_
        exact b.fetch_left capacity hnil
    · exact b.take_left n
  read_le b n := by
    unfold read
    split
    · split
      · exact deliver_le n b.pieces
      · exact List.length_take_le n _
    · exact List.length_take_le n _
  read_ne_nil b n hn hne := by
    unfold read
    split
    next h =>
      rw [left, List.isEmpty_iff.mp h, List.nil_append] at hne
      split
      · exact deliver_fst_ne_nil b.ne_nil hn hne
      · exact take_ne_nil hn (deliver_fst_ne_nil b.ne_nil hc hne)
    next h => exact take_ne_nil hn fun he => h (List.isEmpty_iff.mpr he)

end Buffered

end AScript.Lib
