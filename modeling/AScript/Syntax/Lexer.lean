import AScript.Syntax.CstLexer

/-! The first lexer, which drops blanks and comments and reads the literals as it goes
(`lexer.rs`, `token.rs`). -/

namespace AScript.Syntax

open AScript.Lib

inductive Tok (F : Type)
  | int (n : I64)
  | float (f : F)
  | str (s : List Char)
  | ident (name : List Char)
  | plus
  | minus
  | star
  | slash
  | percent
  | lParen
  | rParen
  | comma
  | trueKw
  | falseKw
  | nil
  | starStar
  | bang
  | bangEq
  | eqEq
  | lt
  | le
  | gt
  | ge
  | ampAmp
  | pipePipe
  | questionQuestion
  | eq
  | semicolon
  | letKw
  | const
  | plusEq
  | minusEq
  | starEq
  | slashEq
  | lBrace
  | rBrace
  | hashBrace
  | ifKw
  | elseKw
  | whileKw
  | dotDot
  | dotDotEq
  | dotDotDot
  | forKw
  | inKw
  | returnKw
  | breakKw
  | continueKw
  | fn
  | fatArrow
  | lBracket
  | rBracket
  | dot
  | colon
  | questionDot
  | of
  | instanceof
  | templateStr (text : List Char)
  | templateStart (text : List Char)
  | templateMiddle (text : List Char)
  | templateEnd (text : List Char)
  | question
  | pipe
  | amp
  | caret
  | tilde
  | shl
  | shr
  | plusPercent
  | minusPercent
  | starPercent
  | enum
  | matchKw
  | classKw
  | interface
  | defer
  | importKw
  | exportKw
  | async
  | await
  | yield
  | eof

/-- Character offsets `[start, stop)`. -/
structure Extent where
  start : Nat
  stop : Nat
  deriving DecidableEq

structure Token (F : Type) where
  tok : Tok F
  span : Extent

structure AsError where
  message : String
  span : Extent
  deriving DecidableEq

namespace Lexer

variable {F : Type}

def numLitToken : NumLit F → Tok F
  | .int n => .int n
  | .float f => .float f

/-- The text of a quoted string from after its opening quote, and how far its end is; `none` runs
off the input. -/
def lexQuoted (quote : Char) : List Char → Option (List Char × Nat)
  | [] => none
  | [c] => if c = quote then some ([], 1) else none
  | c :: e :: cs =>
    if c = quote then some ([], 1)
    else if c = backslash then
      (lexQuoted quote cs).map fun (s, n) => (escapeChar e :: s, n + 2)
    else (lexQuoted quote (e :: cs)).map fun (s, n) => (c :: s, n + 1)

inductive TemplateChunk
  | full
  | start
  deriving DecidableEq

def lexTemplateChunk : List Char → Option (List Char × Nat × TemplateChunk)
  | [] => none
  | [c] => if c = backtick then some ([], 1, .full) else none
  | c :: e :: cs =>
    if c = backtick then some ([], 1, .full)
    else if c = '$' ∧ e = '{' then some ([], 2, .start)
    else if c = backslash then
      (lexTemplateChunk cs).map fun (s, n, k) => (escapeTemplateChar e :: s, n + 2, k)
    else (lexTemplateChunk (e :: cs)).map fun (s, n, k) => (c :: s, n + 1, k)

def skipBlock : List Char → Option Nat
  | '*' :: '/' :: _ => some 2
  | _ :: d :: cs => (skipBlock (d :: cs)).map (· + 1)
  | _ => none

def isRadixChar (c : Char) : Bool :=
  c == 'x' || c == 'X' || c == 'b' || c == 'B' || c == 'o' || c == 'O'

def isRadixDigit (radixChar d : Char) : Bool :=
  if radixChar = 'x' ∨ radixChar = 'X' then isHexDigit d else d.isDigit

def exponentOk : List Char → Bool
  | d :: cs => d.isDigit || ((d == '+' || d == '-') && cs.head?.any Char.isDigit)
  | [] => false

def exponentLength : List Char → Nat
  | e :: cs =>
    if (e = 'e' ∨ e = 'E') ∧ exponentOk cs then
      let sign := if cs.head? = some '+' ∨ cs.head? = some '-' then 1 else 0
      1 + sign + runLength Char.isDigit (cs.drop sign)
    else 0
  | [] => 0

def decimalLength (cs : List Char) : Nat :=
  let j := runLength isDecimal cs
  let j := j + CstLexer.scanFraction (cs.drop j)
  j + exponentLength (cs.drop j)

def numberLength : List Char → Nat × String
  | '0' :: x :: cs =>
    if isRadixChar x then
      (2 + runLength (fun d => isRadixDigit x d || d == '_') cs,
        if x = 'x' ∨ x = 'X' then "invalid hex number literal"
        else if x = 'o' ∨ x = 'O' then "invalid octal number literal"
        else "invalid binary number literal")
    else (decimalLength ('0' :: x :: cs), "invalid number")
  | cs => (decimalLength cs, "invalid number")

def symbol (c : Char) (cs : List Char) : Option (Tok F × Nat) :=
  let next := cs.head?
  match c with
  | '+' => some <|
    if next = some '=' then (.plusEq, 2) else if next = some '%' then (.plusPercent, 2)
    else (.plus, 1)
  | '-' => some <|
    if next = some '=' then (.minusEq, 2) else if next = some '%' then (.minusPercent, 2)
    else (.minus, 1)
  | '*' => some <|
    if next = some '*' then (.starStar, 2) else if next = some '=' then (.starEq, 2)
    else if next = some '%' then (.starPercent, 2) else (.star, 1)
  | '!' => some <| if next = some '=' then (.bangEq, 2) else (.bang, 1)
  | '=' => some <|
    if next = some '=' then (.eqEq, 2) else if next = some '>' then (.fatArrow, 2) else (.eq, 1)
  | '<' => some <|
    if next = some '=' then (.le, 2) else if next = some '<' then (.shl, 2) else (.lt, 1)
  | '>' => some <|
    if next = some '=' then (.ge, 2) else if next = some '>' then (.shr, 2) else (.gt, 1)
  | '&' => some <| if next = some '&' then (.ampAmp, 2) else (.amp, 1)
  | '^' => some (.caret, 1)
  | '~' => some (.tilde, 1)
  | '|' => some <| if next = some '|' then (.pipePipe, 2) else (.pipe, 1)
  | '?' => some <|
    if next = some '?' then (.questionQuestion, 2)
    else if next = some '.' then (.questionDot, 2) else (.question, 1)
  | '/' => some <| if next = some '=' then (.slashEq, 2) else (.slash, 1)
  | '.' => some <|
    if next = some '.' ∧ cs.tail.head? = some '.' then (.dotDotDot, 3)
    else if next = some '.' ∧ cs.tail.head? = some '=' then (.dotDotEq, 3)
    else if next = some '.' then (.dotDot, 2) else (.dot, 1)
  | '%' => some (.percent, 1)
  | '(' => some (.lParen, 1)
  | ')' => some (.rParen, 1)
  | ',' => some (.comma, 1)
  | ';' => some (.semicolon, 1)
  | ':' => some (.colon, 1)
  | '[' => some (.lBracket, 1)
  | ']' => some (.rBracket, 1)
  | _ => none

def keywords : List (List Char × Tok F) := [
  (['t', 'r', 'u', 'e'], .trueKw), (['f', 'a', 'l', 's', 'e'], .falseKw), (['n', 'i', 'l'], .nil),
  (['l', 'e', 't'], .letKw), (['c', 'o', 'n', 's', 't'], .const), (['i', 'f'], .ifKw),
  (['e', 'l', 's', 'e'], .elseKw), (['w', 'h', 'i', 'l', 'e'], .whileKw), (['f', 'o', 'r'], .forKw),
  (['i', 'n'], .inKw), (['o', 'f'], .of),
  (['i', 'n', 's', 't', 'a', 'n', 'c', 'e', 'o', 'f'], .instanceof),
  (['r', 'e', 't', 'u', 'r', 'n'], .returnKw), (['b', 'r', 'e', 'a', 'k'], .breakKw),
  (['c', 'o', 'n', 't', 'i', 'n', 'u', 'e'], .continueKw), (['f', 'n'], .fn),
  (['e', 'n', 'u', 'm'], .enum), (['m', 'a', 't', 'c', 'h'], .matchKw),
  (['c', 'l', 'a', 's', 's'], .classKw),
  (['i', 'n', 't', 'e', 'r', 'f', 'a', 'c', 'e'], .interface),
  (['d', 'e', 'f', 'e', 'r'], .defer), (['i', 'm', 'p', 'o', 'r', 't'], .importKw),
  (['e', 'x', 'p', 'o', 'r', 't'], .exportKw), (['a', 's', 'y', 'n', 'c'], .async),
  (['a', 'w', 'a', 'i', 't'], .await), (['y', 'i', 'e', 'l', 'd'], .yield)]

def word (text : List Char) : Tok F :=
  ((keywords.find? fun kw => kw.1 == text).map Prod.snd).getD (.ident text)

structure LexState (F : Type) where
  tokens : List (Token F)
  i : Nat
  braceDepth : Nat
  /-- The depths of braces at the open interpolations, the innermost first. -/
  templateStack : List Nat

def LexState.new : LexState F := ⟨[], 0, 0, []⟩

/-- Pushes a token of `len` characters. -/
def LexState.push (st : LexState F) (tok : Tok F) (len : Nat) : LexState F :=
  { st with tokens := st.tokens ++ [⟨tok, ⟨st.i, st.i + len⟩⟩], i := st.i + len }

def LexState.skip (st : LexState F) (len : Nat) : LexState F := { st with i := st.i + len }

def LexState.fail {α : Type} (st : LexState F) (message : String) (len : Nat) : Except AsError α :=
  .error ⟨message, ⟨st.i, st.i + len⟩⟩

def unexpected (c : Char) : String := "unexpected character '" ++ c.toString ++ "'"

def stepOther (lib : TextLib F) (st : LexState F) (c : Char) (cs : List Char) :
    Except AsError (LexState F × Nat) :=
  if c = '#' then
    if cs.head? = some '{' then
      .ok ({ st with braceDepth := st.braceDepth + 1 }.push .hashBrace 2, 1)
    else st.fail (unexpected '#') 1
  else if c = '{' then
    .ok ({ st with braceDepth := st.braceDepth + 1 }.push .lBrace 1, 0)
  else if c = '}' then
    if st.templateStack.head? = some st.braceDepth then
      let st := { st with templateStack := st.templateStack.tail }
      match lexTemplateChunk cs with
      | some (text, n, .full) => .ok (st.push (.templateEnd text) (n + 1), n)
      | some (text, n, .start) =>
        .ok ({ st.push (.templateMiddle text) (n + 1) with
          templateStack := st.braceDepth :: st.templateStack }, n)
      | none => st.fail errUnterminatedTemplate (1 + cs.length)
    else .ok ({ st with braceDepth := st.braceDepth - 1 }.push .rBrace 1, 0)
  else if c = quotation ∨ c = apostrophe then
    match lexQuoted c cs with
    | some (s, n) => .ok (st.push (.str s) (n + 1), n)
    | none => st.fail errUnterminatedString (1 + cs.length)
  else if c = backtick then
    match lexTemplateChunk cs with
    | some (text, n, .full) => .ok (st.push (.templateStr text) (n + 1), n)
    | some (text, n, .start) =>
      .ok ({ st.push (.templateStart text) (n + 1) with
        templateStack := st.braceDepth :: st.templateStack }, n)
    | none => st.fail errUnterminatedTemplate (1 + cs.length)
  else if c.isDigit then
    let (len, label) := numberLength (c :: cs)
    match parseNumberText lib ((c :: cs).take len) with
    | .ok lit => .ok (st.push (numLitToken lit) len, len - 1)
    | .error e => st.fail (e.message label) len
  else if lib.isWordStart c then
    let len := runLength lib.isWordRest (c :: cs)
    .ok (st.push (word ((c :: cs).take len)) len, len - 1)
  else st.fail (unexpected c) 1

def step (lib : TextLib F) (st : LexState F) (c : Char) (cs : List Char) :
    Except AsError (LexState F × Nat) :=
  if isWhitespace c then .ok (st.skip 1, 0)
  else if c = '/' ∧ cs.head? = some '/' then
    let n := 1 + runLength (· != '\n') cs.tail
    .ok (st.skip (n + 1), n)
  else if c = '/' ∧ cs.head? = some '*' then
    match skipBlock cs.tail with
    | some n => .ok (st.skip (n + 2), n + 1)
    | none => st.fail errUnterminatedComment (2 + (cs.tail.length - 1))
  else
    match symbol c cs with
    | some (tok, len) => .ok (st.push tok len, len - 1)
    | none => stepOther lib st c cs

def lex (lib : TextLib F) (src : List Char) : Except AsError (List (Token F)) :=
  (scan (step lib) .new src).map fun st => st.tokens ++ [⟨.eof, ⟨src.length, src.length⟩⟩]

end Lexer

end AScript.Syntax
