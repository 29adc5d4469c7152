import AScript.Lib.Scan
import AScript.Syntax.Kind
import AScript.Syntax.LexLiterals

/-! The lexer of the concrete syntax tree, which keeps every character (`syntax/lexer.rs`). A scan
from a position of the source is a function of the characters from there on, and gives how many
of them it takes. -/

namespace AScript.Syntax

open AScript.Lib

structure LexToken where
  kind : SyntaxKind
  text : List Char
  deriving DecidableEq

/-- `token` is a position in the list of all tokens. -/
structure LexError where
  message : String
  token : Nat
  deriving DecidableEq

def render (tokens : List LexToken) : List Char := tokens.flatMap (·.text)

def runLength (p : Char → Bool) (cs : List Char) : Nat := (cs.takeWhile p).length

def isDecimal (c : Char) : Bool := c.isDigit || c == '_'

def errUnterminatedString : String := "unterminated string"

def errUnterminatedTemplate : String := "unterminated template string"

def errUnterminatedComment : String := "unterminated block comment"

namespace CstLexer

variable {F : Type}

def scanFraction : List Char → Nat
  | '.' :: d :: cs => if d.isDigit then 1 + runLength isDecimal (d :: cs) else 0
  | _ => 0

def scanExponent : List Char → Nat
  | e :: cs =>
    if e = 'e' ∨ e = 'E' then
      let sign := if cs.head? = some '+' ∨ cs.head? = some '-' then 1 else 0
      let digits := runLength Char.isDigit (cs.drop sign)
      if digits = 0 then 0 else 1 + sign + digits
    else 0
  | [] => 0

def scanDecimal (cs : List Char) : Nat :=
  let i := runLength isDecimal cs
  let i := i + scanFraction (cs.drop i)
  i + scanExponent (cs.drop i)

def scanNumber : List Char → Nat
  | '0' :: x :: cs =>
    if x = 'x' ∨ x = 'X' then 2 + runLength (fun d => isHexDigit d || d == '_') cs
    else if x = 'b' ∨ x = 'B' then 2 + runLength isDecimal cs
    else if x = 'o' ∨ x = 'O' then 2 + runLength isDecimal cs
    else scanDecimal ('0' :: x :: cs)
  | cs => scanDecimal cs

def scanStringEnd (quote : Char) : List Char → Nat × Bool
  | [] => (0, false)
  | [c] => (1, c == quote)
  | c :: e :: cs =>
    if c = backslash then ((scanStringEnd quote cs).1 + 2, (scanStringEnd quote cs).2)
    else if c = quote then (1, true)
    else ((scanStringEnd quote (e :: cs)).1 + 1, (scanStringEnd quote (e :: cs)).2)

theorem scanStringEnd_le (quote : Char) (cs : List Char) :
    (scanStringEnd quote cs).1 ≤ cs.length := by
  induction cs using scanStringEnd.induct quote with
  | case1 => exact Nat.le_refl _
  | case2 c => exact Nat.le_refl _
  | case3 e cs ih =>
    rw [scanStringEnd, if_pos rfl]
    exact Nat.add_le_add_right ih 2
  | case4 e cs h =>
    rw [scanStringEnd, if_neg h, if_pos rfl]
    exact Nat.succ_le_succ (Nat.zero_le _)
  | case5 c e cs h h' ih =>
    rw [scanStringEnd, if_neg h, if_neg h']
    exact Nat.add_le_add_right ih 1

inductive ChunkEnd
  | closed
  | interpolation
  | unterminated
  deriving DecidableEq

def scanChunk : List Char → Nat × ChunkEnd
  | [] => (0, .unterminated)
  | [c] => (1, if c = backtick then .closed else .unterminated)
  | c :: e :: cs =>
    if c = backslash then ((scanChunk cs).1 + 2, (scanChunk cs).2)
    else if c = backtick then (1, .closed)
    else if c = '$' ∧ e = '{' then (2, .interpolation)
    else ((scanChunk (e :: cs)).1 + 1, (scanChunk (e :: cs)).2)

theorem scanChunk_le (cs : List Char) : (scanChunk cs).1 ≤ cs.length := by
  induction cs using scanChunk.induct with
  | case1 => exact Nat.le_refl _
  | case2 c => exact Nat.le_refl _
  | case3 e cs ih =>
    rw [scanChunk, if_pos rfl]
    exact Nat.add_le_add_right ih 2
  | case4 e cs h =>
    rw [scanChunk, if_neg h, if_pos rfl]
    exact Nat.succ_le_succ (Nat.zero_le _)
  | case5 c e cs h h' hd =>
    rw [scanChunk, if_neg h, if_neg h', if_pos hd]
    exact Nat.succ_le_succ (Nat.succ_le_succ (Nat.zero_le _))
  | case6 c e cs h h' hd ih =>
    rw [scanChunk, if_neg h, if_neg h', if_neg hd]
    exact Nat.add_le_add_right ih 1

def scanTemplateChunk (fromBacktick : Bool) (cs : List Char) : SyntaxKind × Nat × Bool :=
  let whole := if fromBacktick then SyntaxKind.templateStr else .templateEnd
  match scanChunk cs with
  | (n, .closed) => (whole, n, true)
  | (n, .interpolation) => (if fromBacktick then .templateStart else .templateMiddle, n, true)
  | (n, .unterminated) => (whole, n, false)

def scanBlockEnd : List Char → Nat × Bool
  | '*' :: '/' :: _ => (2, true)
  | _ :: d :: cs => ((scanBlockEnd (d :: cs)).1 + 1, (scanBlockEnd (d :: cs)).2)
  | cs => (cs.length, false)

theorem scanBlockEnd_le (cs : List Char) : (scanBlockEnd cs).1 ≤ cs.length := by
  induction cs using scanBlockEnd.induct with
  | case1 cs => exact Nat.succ_le_succ (Nat.succ_le_succ (Nat.zero_le _))
  | case2 c d cs h ih =>
    rw [scanBlockEnd]
    · exact Nat.succ_le_succ ih
    · exact h
  | case3 cs h h' =>
    match cs with
    | [] => exact Nat.le_refl _
    | [c] => simp [scanBlockEnd]
    | c :: d :: cs => exact absurd rfl (h' c d cs)

def matchOperator (cs : List Char) : Option (SyntaxKind × Nat) :=
  (SyntaxKind.operators.find? fun op => op.1.isPrefixOf cs).map fun op => (op.2, op.1.length)

def keywordKind (text : List Char) : Option SyntaxKind :=
  (SyntaxKind.keywords.find? fun kw => kw.1 == text).map Prod.snd

structure LexState where
  tokens : List LexToken
  errors : List LexError
  braceDepth : Nat
  /-- Open interpolations, the innermost first: the depth of braces at each and the position of
  the token that starts its template. -/
  templateStack : List (Nat × Nat)

def LexState.new : LexState := ⟨[], [], 0, []⟩

structure Lexeme where
  kind : SyntaxKind
  more : Nat
  lacks : Option String := none

def unterminated (message : String) (terminated : Bool) : Option String :=
  if terminated then none else some message

def lexeme (lib : TextLib F) (st : LexState) (c : Char) (cs : List Char) : Lexeme :=
  if c = '\n' then { kind := .newline, more := 0 }
  else if isWhitespace c then
    { kind := .whitespace, more := runLength (fun d => isWhitespace d && d != '\n') cs }
  else if c = '/' ∧ cs.head? = some '/' then
    { kind := .lineComment, more := 1 + runLength (· != '\n') cs.tail }
  else if c = '/' ∧ cs.head? = some '*' then
    let (n, terminated) := scanBlockEnd cs.tail
    { kind := .blockComment, more := 1 + n,
      lacks := unterminated errUnterminatedComment terminated }
  else if c.isDigit then { kind := .number, more := scanNumber (c :: cs) - 1 }
  else if lib.isWordStart c then
    let n := runLength lib.isWordRest cs
    { kind := (keywordKind (c :: cs.take n)).getD .ident, more := n }
  else if c = quotation ∨ c = apostrophe then
    let (n, terminated) := scanStringEnd c cs
    { kind := .str, more := n, lacks := unterminated errUnterminatedString terminated }
  else if c = backtick then
    let (kind, n, terminated) := scanTemplateChunk true cs
    { kind, more := n, lacks := unterminated errUnterminatedTemplate terminated }
  else if c = '}' ∧ st.templateStack.head?.map Prod.fst = some st.braceDepth then
    let (kind, n, terminated) := scanTemplateChunk false cs
    { kind, more := n, lacks := unterminated errUnterminatedTemplate terminated }
  else
    match matchOperator (c :: cs) with
    | some (kind, n) => { kind, more := n - 1 }
    | none => { kind := .error, more := 0 }

def LexState.push (st : LexState) (kind : SyntaxKind) (text : List Char) (lacks : Option String) :
    LexState where
  tokens := st.tokens ++ [⟨kind, text⟩]
  errors := st.errors ++ lacks.toList.map fun message => ⟨message, st.tokens.length⟩
  braceDepth :=
    match kind with
    | .lBrace | .hashLBrace => st.braceDepth + 1
    | .rBrace => st.braceDepth - 1
    | _ => st.braceDepth
  templateStack :=
    match kind with
    | .templateStart => (st.braceDepth, st.tokens.length) :: st.templateStack
    | .templateEnd => st.templateStack.tail
    | _ => st.templateStack

def step (lib : TextLib F) (st : LexState) (c : Char) (cs : List Char) : Id (LexState × Nat) :=
  let l := lexeme lib st c cs
  (st.push l.kind (c :: cs.take l.more) l.lacks, l.more)

def lexAll (lib : TextLib F) (src : List Char) : LexState := scan (step lib) .new src

/-- Interpolations left open, the outermost first. -/
def LexState.unclosed (st : LexState) : List LexError :=
  st.templateStack.reverse.map fun entry => ⟨errUnterminatedTemplate, entry.2⟩

def lexWithErrors (lib : TextLib F) (src : List Char) : List LexToken × List LexError :=
  let st := lexAll lib src
  (st.tokens, st.errors ++ st.unclosed)

end CstLexer

end AScript.Syntax
