import Mathlib.Algebra.Ring.Nat
import Mathlib.Data.List.Basic

namespace AScript.Lib

def hexDigit (c : Char) : Option Nat :=
  if c.isDigit then some (c.toNat - '0'.toNat)
  else if 'a' ≤ c ∧ c ≤ 'f' then some (c.toNat - 'a'.toNat + 10)
  else if 'A' ≤ c ∧ c ≤ 'F' then some (c.toNat - 'A'.toNat + 10)
  else none

/-- The lowest bytes of a number, little-endian. -/
def le : Nat → Nat → List UInt8
  | 0, _ => []
  | k + 1, n => UInt8.ofNat n :: le k (n / 256)

def ofLe : List UInt8 → Nat
  | [] => 0
  | b :: bs => b.toNat + 256 * ofLe bs

@[simp] theorem length_le (k n : Nat) : (le k n).length = k := by
  induction k generalizing n with
  | zero => rfl
  | succ k ih => simp [le, ih]

theorem ofLe_le (h : n < 256 ^ k) : ofLe (le k n) = n := by
  induction k generalizing n with
  | zero =>
    rw [Nat.pow_zero, Nat.lt_one_iff] at h
    subst h
    rfl
  | succ k ih =>
    have hdiv : n / 256 < 256 ^ k := by
      rw [Nat.div_lt_iff_lt_mul (by decide)]
      omega
    rw [le, ofLe, ih hdiv, UInt8.toNat_ofNat']
    omega

def utf8 (s : String) : List UInt8 := s.toByteArray.data.toList

def ofUtf8 (bs : List UInt8) : Option String := String.fromUTF8? ⟨bs.toArray⟩

theorem ofUtf8_utf8 (s : String) : ofUtf8 (utf8 s) = some s := by
  have h : (⟨(utf8 s).toArray⟩ : ByteArray) = s.toByteArray := rfl
  rw [ofUtf8, h, String.fromUTF8?, dif_pos s.isValidUTF8]
  rfl

abbrev Reader (S E : Type) := StateT (List UInt8 × S) (Except E)

def Reads (p : Reader S E α) (bs : List UInt8) (s : S) (a : α) (s' : S) : Prop :=
  ∀ rest, p (bs ++ rest, s) = .ok (a, (rest, s'))

namespace Reader

variable {S E α β : Type}

def take (short : E) (n : Nat) : Reader S E (List UInt8) := fun (bs, s) =>
  if n ≤ bs.length then .ok (bs.take n, (bs.drop n, s)) else .error short

def u8 (short : E) : Reader S E UInt8 := fun (bs, s) =>
  match bs with
  | b :: bs => .ok (b, (bs, s))
  | [] => .error short

def word (short : E) (k : Nat) : Reader S E Nat := do return ofLe (← take short k)

def bytes (short : E) : Reader S E (List UInt8) := do take short (← word short 4)

def str (short bad : E) : Reader S E String := do
  match ofUtf8 (← bytes short) with
  | some s => return s
  | none => throw bad

def many (p : Reader S E α) : Nat → Reader S E (List α)
  | 0 => pure []
  | n + 1 => do
    let a ← p
    let as ← many p n
    return a :: as

def state : Reader S E S := fun (bs, s) => .ok (s, (bs, s))

def setState (s : S) : Reader S E Unit := fun (bs, _) => .ok ((), (bs, s))

end Reader

def putBytes (bs : List UInt8) : List UInt8 := le 4 bs.length ++ bs

def putStr (s : String) : List UInt8 := putBytes (utf8 s)

namespace Reads

variable {S E α β : Type} {p : Reader S E α} {f : α → Reader S E β} {bs cs : List UInt8}
  {s s' s'' : S} {a : α} {b : β} {short bad : E}

theorem pure : Reads (Pure.pure a : Reader S E α) [] s a s := fun _ => rfl

theorem bind (hp : Reads p bs s a s') (hf : Reads (f a) cs s' b s'') :
    Reads (p >>= f) (bs ++ cs) s b s'' := by
  intro rest
  rw [List.append_assoc]
  exact (congrArg (· >>= fun r : α × (List UInt8 × S) => f r.1 r.2) (hp (cs ++ rest))).trans
    (hf rest)

theorem andThen (hp : Reads p bs s a s') (hf : Reads (f a) [] s' b s'') :
    Reads (p >>= f) bs s b s'' := by
  simpa using hp.bind hf

theorem first (hp : Reads p [] s a s') (hf : Reads (f a) cs s' b s'') :
    Reads (p >>= f) cs s b s'' := by
  simpa using hp.bind hf

theorem state : Reads (Reader.state : Reader S E S) [] s s s := fun _ => rfl

theorem setState : Reads (Reader.setState s' : Reader S E Unit) [] s () s' := fun _ => rfl

theorem take : Reads (Reader.take short bs.length : Reader S E (List UInt8)) bs s bs s := by
  intro rest
  simp [Reader.take]

theorem u8 (b : UInt8) : Reads (Reader.u8 short : Reader S E UInt8) [b] s b s := fun _ => rfl

theorem word (h : n < 256 ^ k) :
    Reads (Reader.word short k : Reader S E Nat) (le k n) s n s := by
  have ht : Reads (Reader.take short (le k n).length : Reader S E _) (le k n) s (le k n) s := .take
  rw [length_le] at ht
  refine ht.andThen ?_
  rw [ofLe_le h]
  exact .pure

theorem bytes (h : bs.length < 2 ^ 32) :
    Reads (Reader.bytes short : Reader S E _) (putBytes bs) s bs s :=
  (Reads.word (by simpa using h)).bind .take

theorem str (h : (utf8 t).length < 2 ^ 32) :
    Reads (Reader.str short bad : Reader S E String) (putStr t) s t s := by
  refine (Reads.bytes h).andThen ?_
  rw [ofUtf8_utf8]
  exact .pure

end Reads

end AScript.Lib
