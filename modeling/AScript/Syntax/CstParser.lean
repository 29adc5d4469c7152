import AScript.Syntax.CstLexer

/-! The parser's primitives (`syntax/parser.rs`): they move a cursor over the tokens that matter to
the grammar and write events. Which of them the grammar calls, and when, is left open. -/

namespace AScript.Syntax

/-- `event.rs`. A start is a tombstone until its node is completed, and stays one if it is not. -/
inductive Event
  | start (kind : SyntaxKind) (forwardParent : Option Nat)
  | finish
  | token (kind : SyntaxKind)
  | error (message : String)
  deriving DecidableEq

namespace Event

def setKind (kind : SyntaxKind) : Event → Event
  | .start _ fp => .start kind fp
  | e => e

def setParent (parent : Nat) : Event → Event
  | .start kind _ => .start kind (some parent)
  | e => e

def isNode : Event → Bool
  | .start kind _ => kind != .tombstone
  | _ => false

end Event

/-- `tokenIndex` is among the tokens that are no trivia. -/
structure ParseError where
  message : String
  tokenIndex : Nat
  deriving DecidableEq

structure Parse where
  events : List Event
  errors : List ParseError
  lexErrors : List LexError
  tokens : List LexToken
  deriving DecidableEq

structure Parser where
  tokens : List LexToken
  /-- Positions of the tokens that are no trivia. -/
  nontrivia : List Nat
  /-- Cursor into `nontrivia`. -/
  pos : Nat
  events : List Event
  errors : List ParseError
  lexErrors : List LexError

def nontriviaFrom : Nat → List LexToken → List Nat
  | _, [] => []
  | i, t :: ts => if t.kind.isTrivia then nontriviaFrom (i + 1) ts else i :: nontriviaFrom
      (i + 1) ts

namespace Parser

def new (lib : TextLib F) (src : List Char) : Parser where
  tokens := (CstLexer.lexWithErrors lib src).1
  nontrivia := nontriviaFrom 0 (CstLexer.lexWithErrors lib src).1
  pos := 0
  events := []
  errors := []
  lexErrors := (CstLexer.lexWithErrors lib src).2

def current (p : Parser) : SyntaxKind :=
  ((p.nontrivia[p.pos]?).bind (p.tokens[·]?)).elim .error LexToken.kind

def atEnd (p : Parser) : Bool := p.nontrivia.length ≤ p.pos

def emit (p : Parser) (e : Event) : Parser := { p with events := p.events ++ [e] }

/-- A marker is the position of its start. -/
def start (p : Parser) : Parser × Nat := (p.emit (.start .tombstone none), p.events.length)

def bumpRemap (p : Parser) (kind : SyntaxKind) : Parser :=
  if p.atEnd then p else { p.emit (.token kind) with pos := p.pos + 1 }

def bump (p : Parser) : Parser := p.bumpRemap p.current

def gtToken : LexToken := ⟨.gt, ['>']⟩

/-- A `>>` that closes two lists of type arguments becomes two tokens. The errors of the lexer keep
their positions. -/
def splitShrForType (p : Parser) : Parser × Bool :=
  if p.current ≠ .shr then (p, false)
  else
    match p.nontrivia[p.pos]? with
    | none => (p, false)
    | some ti =>
      ({ p with
          tokens := (p.tokens.set ti gtToken).insertIdx (ti + 1) gtToken
          nontrivia :=
            (p.nontrivia.map fun idx => if ti < idx then idx + 1 else idx).insertIdx (p.pos + 1)
              (ti + 1) },
        true)

def complete (p : Parser) (marker : Nat) (kind : SyntaxKind) : Parser :=
  { p with events := p.events.modify marker (Event.setKind kind) ++ [.finish] }

def precede (p : Parser) (completed : Nat) : Parser × Nat :=
  ({ p with
      events :=
        (p.events ++ [Event.start .tombstone none]).modify completed
          (Event.setParent p.events.length) },
    p.events.length)

def error (p : Parser) (message : String) : Parser :=
  { p.emit (.error message) with errors := p.errors ++ [⟨message, p.pos⟩] }

def isLive (p : Parser) (marker : Nat) : Bool := p.events[marker]? == some (.start .tombstone none)

def isCompleted (p : Parser) (marker : Nat) : Bool := p.events[marker]?.any Event.isNode

end Parser

/-- One call of a primitive. A marker that no call completes is abandoned. -/
inductive Op
  | start
  | bump
  | bumpRemap (kind : SyntaxKind)
  | splitShrForType
  | complete (marker : Nat) (kind : SyntaxKind)
  | precede (completed : Nat)
  | error (message : String)
  deriving DecidableEq

namespace Parser

def apply (p : Parser) : Op → Option Parser
  | .start => some p.start.1
  | .bump => some p.bump
  | .bumpRemap kind => if kind.staticText = none then some (p.bumpRemap kind) else none
  | .splitShrForType => some p.splitShrForType.1
  | .complete marker kind =>
    if marker ≠ 0 ∧ p.isLive marker ∧ kind ≠ .tombstone then some (p.complete marker kind) else none
  | .precede completed => if p.isCompleted completed then some (p.precede completed).1 else none
  | .error message => some (p.error message)

def run (p : Parser) : List Op → Option Parser
  | [] => some p
  | op :: ops => (p.apply op).bind (run · ops)

def finish (p : Parser) : Parse :=
  let p := p.complete 0 .sourceFile
  ⟨p.events, p.errors, p.lexErrors, p.tokens⟩

end Parser

/-- `parse`: the root is opened first and completed last, when every token is consumed; what the
grammar does in between is given. -/
def parseWith (lib : TextLib F) (src : List Char) (ops : List Op) : Option Parse :=
  ((Parser.new lib src).start.1.run ops).bind fun p => if p.atEnd then some p.finish else none

end AScript.Syntax
