import Mathlib.Data.List.DropRight
import Mathlib.Tactic.Common

namespace AScript.Lib.Message

abbrev Bytes := List UInt8

def ascii (s : String) : Bytes := s.toList.map fun c => UInt8.ofNat c.toNat

def crlf : Bytes := [13, 10]

def isTchar (b : UInt8) : Bool :=
  48 ≤ b && b ≤ 57 || 65 ≤ b && b ≤ 90 || 97 ≤ b && b ≤ 122 ||
    [33, 35, 36, 37, 38, 39, 42, 43, 45, 46, 94, 95, 96, 124, 126].contains b

def isToken (s : Bytes) : Bool := !s.isEmpty && s.all isTchar

def isTarget (s : Bytes) : Bool := !s.isEmpty && s.all fun b => 0x21 ≤ b && b != 0x7f

def isFieldByte (b : UInt8) : Bool := b == 9 || 0x20 ≤ b && b != 0x7f

def isOws (b : UInt8) : Bool := b == 9 || b == 0x20

def trimOws (s : Bytes) : Bytes := (s.dropWhile isOws).rdropWhile isOws

def isFieldValue (v : Bytes) : Bool :=
  v.all isFieldByte && !v.head?.any isOws && !v.getLast?.any isOws

def lower (b : UInt8) : UInt8 := if 65 ≤ b && b ≤ 90 then b + 32 else b

abbrev Header := Bytes × Bytes

/-- Names are compared without case; `name` is in lower case. -/
def Header.named (name : String) (h : Header) : Bool := h.1.map lower == ascii name

structure Request where
  method : Bytes
  target : Bytes
  headers : List Header
  body : Bytes
  deriving DecidableEq

def takeLine : Bytes → Option (Bytes × Bytes)
  | [] => none
  | b :: rest =>
    if b = 13 ∧ rest.head? = some 10 then some ([], rest.tail)
    else (takeLine rest).map fun (line, rest) => (b :: line, rest)

/-- Before and after the first `c`. -/
def splitFirst (c : UInt8) (s : Bytes) : Option (Bytes × Bytes) :=
  if c ∈ s then some (s.takeWhile (· != c), (s.dropWhile (· != c)).tail) else none

def parseRequestLine (line : Bytes) : Option (Bytes × Bytes) := do
  let (method, rest) ← splitFirst 0x20 line
  let (target, version) ← splitFirst 0x20 rest
  if isToken method && isTarget target && version == ascii "HTTP/1.1" then some (method, target)
  else none

def parseHeader (line : Bytes) : Option Header := do
  let (name, value) ← splitFirst 0x3a line
  if isToken name && isFieldValue (trimOws value) then some (name, trimOws value) else none

def parseHeaders : Nat → Bytes → Option (List Header × Bytes)
  | 0, _ => none
  | fuel + 1, bs => do
    let (line, rest) ← takeLine bs
    if line.isEmpty then some ([], rest)
    else
      let h ← parseHeader line
      let (hs, rest) ← parseHeaders fuel rest
      some (h :: hs, rest)

def parseDecimal (v : Bytes) : Option Nat :=
  if !v.isEmpty && v.all fun b => 48 ≤ b && b ≤ 57 then
    some (v.foldl (fun n b => 10 * n + (b.toNat - 48)) 0)
  else none

/-- A reader of chunked bodies; their framing takes room. -/
structure Dechunker where
  decode : Bytes → Option (Bytes × Bytes)
  shrinks : ∀ bs body rest, decode bs = some (body, rest) → body.length < bs.length

def takeBody (d : Dechunker) (headers : List Header) (bs : Bytes) : Option (Bytes × Bytes) :=
  match headers.filter (·.named "transfer-encoding"), headers.filter (·.named "content-length") with
  | [], [] => some ([], bs)
  | [], [h] => do
    let n ← parseDecimal h.2
    if n ≤ bs.length then some (bs.take n, bs.drop n) else none
  | [h], [] => if h.2.map lower == ascii "chunked" then d.decode bs else none
  | _, _ => none

def parseRequest (d : Dechunker) (bs : Bytes) : Option (Request × Bytes) := do
  let (line, rest) ← takeLine bs
  let (method, target) ← parseRequestLine line
  let (headers, rest) ← parseHeaders (rest.length + 1) rest
  if (headers.filter (·.named "host")).length = 1 then
    let (body, rest) ← takeBody d headers rest
    some (⟨method, target, headers, body⟩, rest)
  else none

theorem takeLine_append (h : 13 ∉ line) (rest : Bytes) :
    takeLine (line ++ crlf ++ rest) = some (line, rest) := by
  induction line with
  | nil => rfl
  | cons b line ih =>
    obtain ⟨hb, hline⟩ := not_or.mp (List.mem_cons.not.mp h)
    rw [List.cons_append, List.cons_append, takeLine, if_neg fun h => hb h.1.symm, ih hline]
    rfl

theorem splitFirst_append {c : UInt8} (h : c ∉ a) (b : Bytes) :
    splitFirst c (a ++ c :: b) = some (a, b) := by
  have ha : ∀ x ∈ a, (x != c) = true := fun x hx => by
    rw [bne_iff_ne]
    rintro rfl
    exact h hx
  rw [splitFirst, if_pos (by simp), List.takeWhile_append_of_pos ha,
    List.dropWhile_append_of_pos ha]
  simp

theorem isToken_not_mem (h : isToken s = true) (hb : isTchar b = false) : b ∉ s := by
  intro hmem
  simp only [isToken, Bool.and_eq_true, List.all_eq_true] at h
  rw [h.2 b hmem] at hb
  cases hb

theorem isTarget_not_mem (h : isTarget s = true) (hb : b ≤ 0x20) : b ∉ s := by
  intro hmem
  simp only [isTarget, Bool.and_eq_true, List.all_eq_true, decide_eq_true_eq] at h
  have hle := (h.2 b hmem).1
  exact absurd (UInt8.le_trans hle hb) (by decide)

theorem isFieldValue_not_mem (h : isFieldValue v = true) (hb : isFieldByte b = false) : b ∉ v := by
  intro hmem
  simp only [isFieldValue, Bool.and_eq_true, List.all_eq_true] at h
  rw [h.1.1 b hmem] at hb
  cases hb

theorem trimOws_space (h : isFieldValue v = true) : trimOws (0x20 :: v) = v := by
  simp only [isFieldValue, Bool.and_eq_true, Bool.not_eq_true'] at h
  obtain ⟨⟨-, hhead⟩, hlast⟩ := h
  have hdrop : (0x20 :: v).dropWhile isOws = v := by
    rw [List.dropWhile_cons_of_pos (by decide)]
    cases v with
    | nil => rfl
    | cons b v =>
      rw [List.dropWhile_cons_of_neg]
      simpa using hhead
  rw [trimOws, hdrop, List.rdropWhile_eq_self_iff]
  intro hne
  rw [List.getLast?_eq_getLast_of_ne_nil hne] at hlast
  simpa using hlast

def Header.Valid (h : Header) : Prop := isToken h.1 = true ∧ isFieldValue h.2 = true

def Header.line (h : Header) : Bytes := h.1 ++ [0x3a, 0x20] ++ h.2

def writeHeaders (hs : List Header) : Bytes := hs.flatMap fun h => h.line ++ crlf

theorem length_le_writeHeaders (hs : List Header) : hs.length ≤ (writeHeaders hs).length := by
  have hcrlf : crlf.length = 2 := rfl
  induction hs with
  | nil => simp
  | cons h hs ih =>
    simp only [writeHeaders, List.flatMap_cons, List.length_append, List.length_cons] at ih ⊢
    omega

theorem Header.Valid.parse {h : Header} (hv : h.Valid) : parseHeader h.line = some h := by
  have hsplit : splitFirst 0x3a h.line = some (h.1, 0x20 :: h.2) := by
    rw [Header.line, List.append_assoc]
    exact splitFirst_append (isToken_not_mem hv.1 (by decide)) _
  simp only [parseHeader, hsplit, Option.bind_eq_bind, Option.bind_some, trimOws_space hv.2, hv.1,
    hv.2]
  rfl

theorem Header.Valid.no_cr {h : Header} (hv : h.Valid) : 13 ∉ h.line := by
  simp only [Header.line, List.mem_append, not_or]
  exact ⟨⟨isToken_not_mem hv.1 (by decide), by decide⟩, isFieldValue_not_mem hv.2 (by decide)⟩

theorem Header.line_ne_nil (h : Header) : h.line.isEmpty = false := by
  simp [Header.line]

theorem parseHeaders_write (hv : ∀ h ∈ hs, Header.Valid h) (hf : hs.length < fuel) (rest : Bytes) :
    parseHeaders fuel (writeHeaders hs ++ crlf ++ rest) = some (hs, rest) := by
  induction hs generalizing fuel with
  | nil =>
    obtain ⟨fuel, rfl⟩ := Nat.exists_eq_succ_of_ne_zero (by omega : fuel ≠ 0)
    rfl
  | cons h hs ih =>
    obtain ⟨fuel, rfl⟩ := Nat.exists_eq_succ_of_ne_zero (by omega : fuel ≠ 0)
    obtain ⟨hh, hhs⟩ := List.forall_mem_cons.mp hv
    have hline : takeLine (writeHeaders (h :: hs) ++ crlf ++ rest) =
        some (h.line, writeHeaders hs ++ crlf ++ rest) := by
      have htake := takeLine_append hh.no_cr (writeHeaders hs ++ crlf ++ rest)
      simpa [writeHeaders] using htake
    rw [parseHeaders, hline]
    simp only [Option.bind_eq_bind, Option.bind_some, h.line_ne_nil, hh.parse,
      ih hhs (Nat.lt_of_succ_lt_succ hf)]
    rfl

theorem parseHeaders_valid (h : parseHeaders fuel bs = some (hs, rest)) :
    ∀ h ∈ hs, Header.Valid h := by
  induction fuel generalizing bs hs rest with
  | zero => cases h
  | succ fuel ih =>
    rw [parseHeaders] at h
    obtain ⟨⟨line, rest'⟩, -, h⟩ := Option.bind_eq_some_iff.mp h
    dsimp only at h
    split at h
    · cases h
      simp
    · obtain ⟨x, hx, h⟩ := Option.bind_eq_some_iff.mp h
      obtain ⟨⟨xs, rest''⟩, hxs, h⟩ := Option.bind_eq_some_iff.mp h
      cases h
      refine List.forall_mem_cons.mpr ⟨?_, ih hxs⟩
      obtain ⟨⟨name, value⟩, -, hx⟩ := Option.bind_eq_some_iff.mp hx
      dsimp only at hx
      split at hx
      next hv =>
        cases hx
        exact Bool.and_eq_true_iff.mp hv
      next => cases hx

theorem parseRequestLine_valid (h : parseRequestLine line = some (method, target)) :
    isToken method = true ∧ isTarget target = true := by
  obtain ⟨⟨m, rest⟩, -, h⟩ := Option.bind_eq_some_iff.mp h
  obtain ⟨⟨t, version⟩, -, h⟩ := Option.bind_eq_some_iff.mp h
  dsimp only at h
  split at h
  next hv =>
    cases h
    simp only [Bool.and_eq_true] at hv
    exact hv.1
  next => cases h

theorem parseRequest_valid (h : parseRequest d bs = some (req, rest)) :
    isToken req.method = true ∧ isTarget req.target = true ∧ ∀ h ∈ req.headers, Header.Valid h := by
  obtain ⟨⟨line, rest₁⟩, -, h⟩ := Option.bind_eq_some_iff.mp h
  obtain ⟨⟨method, target⟩, hline, h⟩ := Option.bind_eq_some_iff.mp h
  obtain ⟨⟨headers, rest₂⟩, hheaders, h⟩ := Option.bind_eq_some_iff.mp h
  dsimp only at h
  split at h
  next =>
    obtain ⟨⟨body, rest₃⟩, -, h⟩ := Option.bind_eq_some_iff.mp h
    cases h
    have ⟨hm, ht⟩ := parseRequestLine_valid hline
    exact ⟨hm, ht, parseHeaders_valid hheaders⟩
  next => cases h

theorem parseRequestLine_write (hm : isToken method = true) (ht : isTarget target = true) :
    parseRequestLine (method ++ [0x20] ++ target ++ [0x20] ++ ascii "HTTP/1.1") =
      some (method, target) := by
  have h₁ : splitFirst 0x20 (method ++ [0x20] ++ target ++ [0x20] ++ ascii "HTTP/1.1") =
      some (method, target ++ 0x20 :: ascii "HTTP/1.1") := by
    have h := splitFirst_append (isToken_not_mem hm (b := 0x20) (by decide))
      (target ++ 0x20 :: ascii "HTTP/1.1")
    simpa using h
  have h₂ := splitFirst_append (isTarget_not_mem ht (b := 0x20) (by decide)) (ascii "HTTP/1.1")
  simp only [parseRequestLine, h₁, h₂, Option.bind_eq_bind, Option.bind_some, hm, ht]
  rfl

def decimal (n : Nat) : Bytes := (Nat.toDigits 10 n).map fun c => UInt8.ofNat c.toNat

theorem toNat_digit {c : Char} (h : c.isDigit = true) :
    48 ≤ c.toNat ∧ c.toNat ≤ 57 ∧ (UInt8.ofNat c.toNat).toNat = c.toNat := by
  have hd : 48 ≤ c.toNat ∧ c.toNat ≤ 57 := Char.isDigit_iff_toNat.mp h
  have hm : c.toNat % 256 = c.toNat := Nat.mod_eq_of_lt (by omega)
  exact ⟨by omega, by omega, by simpa using hm⟩

theorem decimal_digits (n : Nat) : ∀ b ∈ decimal n, 48 ≤ b.toNat ∧ b.toNat ≤ 57 := by
  intro b hb
  obtain ⟨c, hc, rfl⟩ := List.mem_map.mp hb
  obtain ⟨h, h', heq⟩ := toNat_digit (Nat.isDigit_of_mem_toDigits (by decide) (by decide) hc)
  omega

theorem parseDecimal_decimal (n : Nat) : parseDecimal (decimal n) = some n := by
  have hall : ((decimal n).all fun b => 48 ≤ b && b ≤ 57) = true := by
    rw [List.all_eq_true]
    intro b hb
    have := decimal_digits n b hb
    simp only [Bool.and_eq_true, decide_eq_true_eq, UInt8.le_iff_toNat_le]
    exact this
  have hne : (decimal n).isEmpty = false := by
    have := @Nat.toDigits_ne_nil n 10
    simp [decimal, this]
  have hval : (decimal n).foldl (fun n b => 10 * n + (b.toNat - 48)) 0 =
      Nat.ofDigitChars 10 (Nat.toDigits 10 n) 0 := by
    rw [decimal, List.foldl_map, Nat.ofDigitChars_eq_foldl]
    apply List.foldl_ext
    intro a c hc
    rw [(toNat_digit (Nat.isDigit_of_mem_toDigits (by decide) (by decide) hc)).2.2]
    rfl
  rw [parseDecimal, hall, hne, if_pos (by decide), hval,
    Nat.ofDigitChars_toDigits (by decide) (by decide)]

theorem digit_plain {b : UInt8} (h : 48 ≤ b.toNat) (h' : b.toNat ≤ 57) :
    isFieldByte b = true ∧ isOws b = false := by
  have h9 : b ≠ 9 := by
    rintro rfl
    exact absurd h (by decide)
  have h32 : b ≠ 0x20 := by
    rintro rfl
    exact absurd h (by decide)
  have h7f : b ≠ 0x7f := by
    rintro rfl
    exact absurd h' (by decide)
  have hle : 0x20 ≤ b := UInt8.le_iff_toNat_le.mpr (Nat.le_trans (by decide) h)
  simp [isFieldByte, isOws, h9, h32, h7f, hle]

theorem decimal_valid (n : Nat) : isFieldValue (decimal n) = true := by
  have hb := fun b hb => digit_plain (decimal_digits n b hb).1 (decimal_digits n b hb).2
  have hhead : (decimal n).head?.any isOws = false := by
    rw [Option.any_eq_false]
    intro b hb'
    simp [(hb b (List.mem_of_mem_head? hb')).2]
  have hlast : (decimal n).getLast?.any isOws = false := by
    rw [Option.any_eq_false]
    intro b hb'
    simp [(hb b (List.mem_of_getLast? hb')).2]
  rw [isFieldValue, hhead, hlast, List.all_eq_true.mpr fun b h => (hb b h).1]
  rfl

end AScript.Lib.Message
