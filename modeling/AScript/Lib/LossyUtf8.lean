import Mathlib.Algebra.Ring.Nat
import Mathlib.Tactic.Common

namespace AScript.Lib.LossyUtf8

def isContinuation (b : UInt8) : Bool := 0x80 ≤ b && b ≤ 0xbf

def width (b : UInt8) : Nat :=
  if b < 0x80 then 1
  else if 0xc2 ≤ b && b ≤ 0xdf then 2
  else if 0xe0 ≤ b && b ≤ 0xef then 3
  else if 0xf0 ≤ b && b ≤ 0xf4 then 4
  else 0

def isSecond (b c : UInt8) : Bool :=
  if b = 0xe0 then 0xa0 ≤ c && c ≤ 0xbf
  else if b = 0xed then 0x80 ≤ c && c ≤ 0x9f
  else if b = 0xf0 then 0x90 ≤ c && c ≤ 0xbf
  else if b = 0xf4 then 0x80 ≤ c && c ≤ 0x8f
  else isContinuation c

/-- What continues a sequence of the byte `b`. -/
def continues (b : UInt8) : List UInt8 → List UInt8
  | [] => []
  | c :: rest =>
    if 2 ≤ width b ∧ isSecond b c then c :: (rest.take (width b - 2)).takeWhile isContinuation
    else []

def replacement : Char := Char.ofNat 0xfffd

def decodeOne (b : UInt8) (more : List UInt8) : Char :=
  if more.length + 1 = width b then
    Char.ofNat (more.foldl (fun n c => 64 * n + c.toNat % 64)
      (if width b = 1 then b.toNat else b.toNat % 2 ^ (7 - width b)))
  else replacement

def decodeLoop : Nat → List UInt8 → List Char
  | _, [] => []
  | 0, _ => []
  | fuel + 1, b :: rest =>
    decodeOne b (continues b rest) :: decodeLoop fuel (rest.drop (continues b rest).length)

def decode (bs : List UInt8) : List Char := decodeLoop bs.length bs

theorem decode_eq_nil_iff : decode bs = [] ↔ bs = [] := by
  cases bs with
  | nil => exact iff_of_true rfl rfl
  | cons b bs => exact iff_of_false (nofun) (nofun)

theorem decode_ascii (h : b < 0x80) (bs : List UInt8) :
    decode (b :: bs) = Char.ofNat b.toNat :: decode bs := by
  have hwidth : width b = 1 := if_pos h
  have hnil : continues b bs = [] := by
    cases bs with
    | nil => rfl
    | cons c bs => rw [continues, hwidth, if_neg (by simp)]
  rw [decode, List.length_cons, decodeLoop, hnil, decodeOne, hwidth]
  rfl

theorem decode_append (h : ∀ b ∈ a, b < 0x80) (bs : List UInt8) :
    decode (a ++ bs) = a.map (fun b => Char.ofNat b.toNat) ++ decode bs := by
  induction a with
  | nil => rfl
  | cons b a ih =>
    obtain ⟨hb, ha⟩ := List.forall_mem_cons.mp h
    rw [List.cons_append, decode_ascii hb, ih ha]
    rfl

end AScript.Lib.LossyUtf8
