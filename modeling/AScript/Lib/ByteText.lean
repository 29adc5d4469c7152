import Mathlib.Algebra.Ring.Nat
import Mathlib.Data.List.Basic
import Mathlib.Data.List.Infix

namespace AScript.Lib.ByteText

/-- The length in bytes. -/
def size : List Char → Nat
  | [] => 0
  | c :: s => c.utf8Size + size s

def split : Nat → List Char → Option (List Char × List Char)
  | 0, s => some ([], s)
  | _ + 1, [] => none
  | n + 1, c :: s =>
    if c.utf8Size ≤ n + 1 then (split (n + 1 - c.utf8Size) s).map fun r => (c :: r.1, r.2)
    else none

/-- `s[..n]` -/
def sliceTo (n : Nat) (s : List Char) : Option (List Char) := (split n s).map Prod.fst

/-- `s[n..]` -/
def sliceFrom (n : Nat) (s : List Char) : Option (List Char) := (split n s).map Prod.snd

/-- `s[i..j]` -/
def slice (i j : Nat) (s : List Char) : Option (List Char) := (sliceTo j s).bind (sliceFrom i)

def bytes (s : List Char) : List UInt8 := s.flatMap String.utf8EncodeChar

def find (c : Char) (s : List Char) : Option Nat :=
  if c ∈ s then some (size (s.takeWhile (· ≠ c))) else none

def isCharBoundary (s : List Char) (n : Nat) : Bool := (split n s).isSome

@[simp] theorem size_nil : size [] = 0 := rfl

@[simp] theorem size_cons (c : Char) (s : List Char) : size (c :: s) = c.utf8Size + size s := rfl

@[simp] theorem size_append (a b : List Char) : size (a ++ b) = size a + size b := by
  induction a with
  | nil => simp
  | cons c a ih => rw [List.cons_append, size_cons, size_cons, ih, Nat.add_assoc]

theorem size_eq_zero : size s = 0 ↔ s = [] := by
  cases s with
  | nil => simp
  | cons c s =>
    have := c.utf8Size_pos
    simp
    omega

theorem split_append (a b : List Char) : split (size a) (a ++ b) = some (a, b) := by
  induction a with
  | nil => cases b <;> rfl
  | cons c a ih =>
    obtain ⟨n, hn⟩ : ∃ n, size (c :: a) = n + 1 := by
      have := c.utf8Size_pos
      exact ⟨size (c :: a) - 1, by simp only [size_cons]; omega⟩
    rw [hn, List.cons_append, split, ← hn, size_cons, if_pos (Nat.le_add_right _ _),
      Nat.add_sub_cancel_left, ih]
    rfl

theorem split_eq_some : split n s = some (a, b) ↔ s = a ++ b ∧ size a = n := by
  constructor
  · intro h
    induction s generalizing n a b with
    | nil =>
      cases n with
      | zero => cases h; exact ⟨rfl, rfl⟩
      | succ n => cases h
    | cons c s ih =>
      cases n with
      | zero => cases h; exact ⟨rfl, rfl⟩
      | succ n =>
        rw [split] at h
        split at h
        next hle =>
          obtain ⟨⟨a', b'⟩, hr, he⟩ := Option.map_eq_some_iff.mp h
          cases he
          obtain ⟨rfl, hn⟩ := ih hr
          exact ⟨rfl, by rw [size_cons, hn]; omega⟩
        next => cases h
  · rintro ⟨rfl, rfl⟩
    exact split_append a b

theorem sliceTo_append (a b : List Char) : sliceTo (size a) (a ++ b) = some a := by
  rw [sliceTo, split_append]
  rfl

theorem sliceFrom_append (a b : List Char) : sliceFrom (size a) (a ++ b) = some b := by
  rw [sliceFrom, split_append]
  rfl

theorem sliceTo_isSome (n : Nat) (s : List Char) :
    (sliceTo n s).isSome = isCharBoundary s n := by
  rw [sliceTo, Option.isSome_map, isCharBoundary]

theorem prefix_of_size_le (ha : a <+: s) (hb : b <+: s) (h : size a ≤ size b) : a <+: b := by
  refine (List.prefix_or_prefix_of_prefix ha hb).elim id fun ⟨t, ht⟩ => ?_
  rw [← ht, size_append] at h
  have ht0 : t = [] := size_eq_zero.mp (by omega)
  rw [← ht, ht0, List.append_nil]

theorem isCharBoundary_iff : isCharBoundary s n ↔ ∃ a b, s = a ++ b ∧ size a = n := by
  rw [isCharBoundary, Option.isSome_iff_exists]
  exact ⟨fun ⟨_, h⟩ => ⟨_, _, split_eq_some.mp h⟩, fun ⟨a, b, h⟩ => ⟨(a, b), split_eq_some.mpr h⟩⟩

@[simp] theorem isCharBoundary_zero (s : List Char) : isCharBoundary s 0 := by cases s <;> rfl

theorem isCharBoundary_append (a b : List Char) (n : Nat) :
    isCharBoundary (a ++ b) (size a + n) = isCharBoundary b n := by
  rw [Bool.eq_iff_iff, isCharBoundary_iff, isCharBoundary_iff]
  constructor
  · rintro ⟨l, r, h, hn⟩
    obtain ⟨m, rfl⟩ := prefix_of_size_le (List.prefix_append a b) (h ▸ List.prefix_append l r)
      (by omega)
    rw [List.append_assoc, List.append_right_inj] at h
    exact ⟨m, r, h, by rw [size_append] at hn; omega⟩
  · rintro ⟨l, r, rfl, rfl⟩
    exact ⟨a ++ l, r, (List.append_assoc a l r).symm, size_append a l⟩

theorem isCharBoundary_front (hn : n ≤ size a) (b : List Char) :
    isCharBoundary (a ++ b) n = isCharBoundary a n := by
  rw [Bool.eq_iff_iff, isCharBoundary_iff, isCharBoundary_iff]
  constructor
  · rintro ⟨l, r, h, rfl⟩
    obtain ⟨m, rfl⟩ := prefix_of_size_le (h ▸ List.prefix_append l r) (List.prefix_append a b) hn
    exact ⟨l, m, rfl, rfl⟩
  · rintro ⟨l, r, rfl, rfl⟩
    exact ⟨l, r ++ b, List.append_assoc l r b, rfl⟩

theorem le_of_isCharBoundary (h : isCharBoundary s n) : n ≤ size s := by
  obtain ⟨a, b, rfl, rfl⟩ := isCharBoundary_iff.mp h
  rw [size_append]
  exact Nat.le_add_right _ _

theorem slice_append (a m b : List Char) :
    slice (size a) (size (a ++ m)) (a ++ m ++ b) = some m := by
  rw [slice, sliceTo_append, Option.bind_some, sliceFrom_append]

theorem isCharBoundary_inside {c : Char} (hn : n < c.utf8Size) (s : List Char) :
    isCharBoundary (c :: s) n ↔ n = 0 := by
  refine ⟨fun h => ?_, fun h => h ▸ isCharBoundary_zero _⟩
  obtain ⟨a, b, hcut, rfl⟩ := isCharBoundary_iff.mp h
  cases a with
  | nil => rfl
  | cons d a =>
    cases hcut
    rw [size_cons] at hn
    omega

theorem isCharBoundary_ascii {a : List Char} (ha : ∀ c ∈ a, c.utf8Size = 1) (hn : n ≤ size a)
    (b : List Char) : isCharBoundary (a ++ b) n := by
  induction a generalizing n with
  | nil =>
    cases Nat.le_zero.mp hn
    exact isCharBoundary_zero _
  | cons c a ih =>
    have hc := ha c List.mem_cons_self
    cases n with
    | zero => exact isCharBoundary_zero _
    | succ n =>
      have hshift := isCharBoundary_append [c] (a ++ b) n
      rw [size_cons, hc, size_nil, Nat.add_comm] at hshift
      rw [size_cons, hc] at hn
      rw [List.cons_append, ← List.singleton_append, hshift]
      exact ih (fun d hd => ha d (List.mem_cons_of_mem c hd)) (by omega)

theorem sliceTo_eq_some : sliceTo n s = some a ↔ ∃ b, s = a ++ b ∧ size a = n := by
  simp only [sliceTo, Option.map_eq_some_iff, Prod.exists, split_eq_some]
  exact ⟨fun ⟨_, b, h, he⟩ => ⟨b, he ▸ h⟩, fun ⟨b, h⟩ => ⟨a, b, h, rfl⟩⟩

theorem find_append (h : c ∉ a) (b : List Char) : find c (a ++ c :: b) = some (size a) := by
  have hother : ∀ d ∈ a, decide (d ≠ c) = true := by
    rintro d hd
    rw [decide_eq_true_iff]
    rintro rfl
    exact h hd
  have htake : (a ++ c :: b).takeWhile (· ≠ c) = a := by
    rw [List.takeWhile_append_of_pos hother, List.takeWhile_cons_of_neg (by simp),
      List.append_nil]
  rw [find, if_pos (by simp), htake]

theorem find_eq_some (h : find c s = some n) : ∃ a b, s = a ++ c :: b ∧ c ∉ a ∧ size a = n := by
  unfold find at h
  split at h
  next hc =>
    cases h
    obtain ⟨a, b, rfl, ha⟩ := List.eq_append_cons_of_mem hc
    have := find_append ha b
    rw [find, if_pos hc, Option.some_inj] at this
    exact ⟨a, b, rfl, ha, this.symm⟩
  next => cases h

@[simp] theorem length_bytes (s : List Char) : (bytes s).length = size s := by
  induction s with
  | nil => rfl
  | cons c s ih =>
    rw [bytes] at ih
    rw [bytes, List.flatMap_cons, List.length_append, String.length_utf8EncodeChar, ih, size_cons]

theorem bytes_append (a b : List Char) : bytes (a ++ b) = bytes a ++ bytes b := List.flatMap_append

theorem head?_utf8EncodeChar {a : Char} (ha : a.toNat < 0x80) (c : Char) :
    (String.utf8EncodeChar c).head? = some (UInt8.ofNat a.toNat) ↔ c = a := by
  have hinj : c = a ↔ c.val.toNat = a.toNat := by
    rw [← Char.toNat_inj]
    rfl
  rw [hinj, String.utf8EncodeChar]
  split_ifs <;>
    rw [List.head?_cons, Option.some_inj, ← UInt8.toNat_inj, UInt8.toNat_ofNat', UInt8.toNat_ofNat']
      <;> omega

theorem getElem?_bytes {a : Char} (ha : a.toNat < 0x80) (p s : List Char) (c : Char) :
    (bytes (p ++ c :: s))[size p]? = some (UInt8.ofNat a.toNat) ↔ c = a := by
  have hlen : (bytes p).length ≤ size p := (length_bytes p).le
  have hat : (bytes (p ++ c :: s))[size p]? = (String.utf8EncodeChar c).head? := by
    rw [bytes_append, List.getElem?_append_right hlen, length_bytes, Nat.sub_self, bytes,
      List.flatMap_cons, ← List.head?_eq_getElem?, List.head?_append]
    cases hc : String.utf8EncodeChar c with
    | nil => exact absurd hc String.utf8EncodeChar_ne_nil
    | cons b bs => rfl
  rw [hat, head?_utf8EncodeChar ha]

end AScript.Lib.ByteText
