import AScript.Lib.Float64

/-! From the text of a literal to its value (`lex_literals.rs`), and the characters both lexers
ask about. A text is the list of its characters. -/

namespace AScript.Syntax

open AScript.Lib

/-- The parts of the standard library that read Unicode's tables and the text of a float. -/
structure TextLib (F : Type) where
  isAlphabetic : Char → Bool
  isNumeric : Char → Bool
  parseF64 : List Char → Option F
  alphabetic_ascii : ∀ c : Char, c.toNat < 128 → isAlphabetic c = c.isAlpha

namespace TextLib

variable {F : Type}

/-- Nothing but ASCII is alphabetic or numeric, and a float keeps its text. -/
def ascii : TextLib (List Char) where
  isAlphabetic := Char.isAlpha
  isNumeric := Char.isDigit
  parseF64 := some
  alphabetic_ascii _ _ := rfl

def isAlphanumeric (lib : TextLib F) (c : Char) : Bool := lib.isAlphabetic c || lib.isNumeric c

def isWordStart (lib : TextLib F) (c : Char) : Bool := lib.isAlphabetic c || c == '_'

def isWordRest (lib : TextLib F) (c : Char) : Bool := lib.isAlphanumeric c || c == '_'

end TextLib

def backslash : Char := Char.ofNat 92

def apostrophe : Char := Char.ofNat 39

def quotation : Char := Char.ofNat 34

def backtick : Char := Char.ofNat 96

/-- Unicode's `White_Space`. -/
def isWhitespace (c : Char) : Bool :=
  let n := c.toNat
  (9 ≤ n && n ≤ 13) || n == 0x20 || n == 0x85 || n == 0xA0 || n == 0x1680 ||
    (0x2000 ≤ n && n ≤ 0x200A) || n == 0x2028 || n == 0x2029 || n == 0x202F || n == 0x205F ||
    n == 0x3000

def isHexDigit (c : Char) : Bool :=
  c.isDigit || ('a' ≤ c && c ≤ 'f') || ('A' ≤ c && c ≤ 'F')

def escapeChar (c : Char) : Char :=
  if c = 'n' then Char.ofNat 10
  else if c = 't' then Char.ofNat 9
  else if c = 'r' then Char.ofNat 13
  else if c = '0' then Char.ofNat 0
  else c

def escapeTemplateChar (c : Char) : Char :=
  if c = backtick then backtick
  else if c = '$' then '$'
  else escapeChar c

def unescapeBody (escape : Char → Char) : List Char → List Char
  | [] => []
  | [c] => [c]
  | c :: e :: cs =>
    if c = backslash then escape e :: unescapeBody escape cs
    else c :: unescapeBody escape (e :: cs)

def unescapeStrBody (body : List Char) : List Char := unescapeBody escapeChar body

def unescapeTemplateBody (body : List Char) : List Char := unescapeBody escapeTemplateChar body

inductive NumLit (F : Type)
  | int (n : I64)
  | float (f : F)

inductive NumLitError
  | invalid
  | invalidDigit
  | outOfRange
  deriving DecidableEq

def NumLitError.message (invalidLabel : String) : NumLitError → String
  | .invalid => invalidLabel
  | .invalidDigit => "invalid digit in integer literal"
  | .outOfRange => "integer literal out of range for int (i64)"

inductive IntErrorKind
  | empty
  | invalidDigit
  | posOverflow
  | negOverflow
  deriving DecidableEq

def checkedI64 (n : Int) : Option I64 :=
  if h : -2 ^ 63 ≤ n ∧ n < 2 ^ 63 then some ⟨n, h.1, h.2⟩ else none

/-- `char::to_digit`. -/
def toDigit (radix : Nat) (c : Char) : Option Nat :=
  let d :=
    if c.isDigit then c.toNat - 48
    else if 'a' ≤ c ∧ c ≤ 'z' then c.toNat - 87
    else if 'A' ≤ c ∧ c ≤ 'Z' then c.toNat - 55
    else radix
  if d < radix then some d else none

def radixDigits (radix : Nat) (negative : Bool) : I64 → List Char → Except IntErrorKind I64
  | n, [] => .ok n
  | n, c :: cs =>
    match toDigit radix c with
    | none => .error .invalidDigit
    | some d =>
      let next := do
        let n ← checkedI64 (n.val * radix)
        checkedI64 (if negative then n.val - d else n.val + d)
      match next with
      | none => .error (if negative then .negOverflow else .posOverflow)
      | some n => radixDigits radix negative n cs

/-- `i64::from_str_radix`. -/
def fromStrRadix (radix : Nat) (text : List Char) : Except IntErrorKind I64 :=
  match text with
  | [] => .error .empty
  | ['+'] | ['-'] => .error .invalidDigit
  | '+' :: cs => radixDigits radix false .zero cs
  | '-' :: cs => radixDigits radix true .zero cs
  | cs => radixDigits radix false .zero cs

def radixOf (c : Char) : Option Nat :=
  if c = 'x' ∨ c = 'X' then some 16
  else if c = 'b' ∨ c = 'B' then some 2
  else if c = 'o' ∨ c = 'O' then some 8
  else none

def parseDecimal {F : Type} (lib : TextLib F) (text : List Char) : Except NumLitError (NumLit F) :=
  let cleaned := text.filter (· != '_')
  if cleaned.any fun c => c == '.' || c == 'e' || c == 'E' then
    match lib.parseF64 cleaned with
    | some f => .ok (.float f)
    | none => .error .invalid
  else
    match fromStrRadix 10 cleaned with
    | .ok n => .ok (.int n)
    | .error .posOverflow | .error .negOverflow => .error .outOfRange
    | .error _ => .error .invalid

def parseRadix {F : Type} (radix : Nat) (body : List Char) : Except NumLitError (NumLit F) :=
  let digits := body.filter (· != '_')
  if digits = [] then .error .invalid
  else
    match fromStrRadix radix digits with
    | .ok n => .ok (.int n)
    | .error .posOverflow | .error .negOverflow => .error .outOfRange
    | .error .invalidDigit => .error .invalidDigit
    | .error .empty => .error .invalid

def parseNumberText {F : Type} (lib : TextLib F) (text : List Char) :
    Except NumLitError (NumLit F) :=
  match text with
  | '0' :: c :: body =>
    match radixOf c with
    | some radix => parseRadix radix body
    | none => parseDecimal lib text
  | _ => parseDecimal lib text

end AScript.Syntax
