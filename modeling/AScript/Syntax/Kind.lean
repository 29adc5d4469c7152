import Mathlib.Data.List.Basic

/-! Kinds of tokens and nodes (`syntax/kind.rs`). -/

namespace AScript.Syntax

/-- Nodes are told apart by number only; the parser's primitives never look at which they are. -/
inductive SyntaxKind
  | node (n : Nat)
  | whitespace
  | newline
  | lineComment
  | blockComment
  | number
  | str
  | ident
  | templateStr
  | templateStart
  | templateMiddle
  | templateEnd
  | plus
  | minus
  | star
  | slash
  | percent
  | starStar
  | lParen
  | rParen
  | lBrace
  | rBrace
  | hashLBrace
  | lBracket
  | rBracket
  | comma
  | dot
  | colon
  | semicolon
  | bang
  | bangEq
  | eqEq
  | eq
  | lt
  | le
  | gt
  | ge
  | ampAmp
  | pipePipe
  | questionQuestion
  | question
  | questionDot
  | pipe
  | amp
  | caret
  | tilde
  | shl
  | shr
  | plusPercent
  | minusPercent
  | starPercent
  | plusEq
  | minusEq
  | starEq
  | slashEq
  | dotDot
  | dotDotEq
  | dotDotDot
  | fatArrow
  | trueKw
  | falseKw
  | nilKw
  | letKw
  | constKw
  | ifKw
  | elseKw
  | whileKw
  | forKw
  | inKw
  | ofKw
  | instanceofKw
  | returnKw
  | breakKw
  | continueKw
  | fnKw
  | enumKw
  | matchKw
  | classKw
  | interfaceKw
  | deferKw
  | importKw
  | exportKw
  | asyncKw
  | awaitKw
  | yieldKw
  | staticKw
  | workerKw
  | error
  | tombstone
  deriving DecidableEq

namespace SyntaxKind

def isTrivia : SyntaxKind → Bool
  | whitespace | newline | lineComment | blockComment => true
  | _ => false

def sourceFile : SyntaxKind := .node 0

def operators : List (List Char × SyntaxKind) := [
  (['.', '.', '='], dotDotEq), (['.', '.', '.'], dotDotDot),
  (['*', '*'], starStar), (['=', '='], eqEq), (['!', '='], bangEq), (['<', '='], le),
  (['>', '='], ge), (['&', '&'], ampAmp), (['|', '|'], pipePipe), (['?', '?'], questionQuestion),
  (['?', '.'], questionDot), (['+', '='], plusEq), (['-', '='], minusEq), (['*', '='], starEq),
  (['/', '='], slashEq), (['.', '.'], dotDot), (['=', '>'], fatArrow), (['<', '<'], shl),
  (['>', '>'], shr), (['+', '%'], plusPercent), (['-', '%'], minusPercent),
  (['*', '%'], starPercent), (['#', '{'], hashLBrace),
  (['+'], plus), (['-'], minus), (['*'], star), (['/'], slash), (['%'], percent), (['('], lParen),
  ([')'], rParen), (['{'], lBrace), (['}'], rBrace), (['['], lBracket), ([']'], rBracket),
  ([','], comma), (['.'], dot), ([':'], colon), ([';'], semicolon), (['!'], bang), (['='], eq),
  (['<'], lt), (['>'], gt), (['|'], pipe), (['&'], amp), (['^'], caret), (['~'], tilde),
  (['?'], question)]

def keywords : List (List Char × SyntaxKind) := [
  (['t', 'r', 'u', 'e'], trueKw), (['f', 'a', 'l', 's', 'e'], falseKw), (['n', 'i', 'l'], nilKw),
  (['l', 'e', 't'], letKw), (['c', 'o', 'n', 's', 't'], constKw), (['i', 'f'], ifKw),
  (['e', 'l', 's', 'e'], elseKw), (['w', 'h', 'i', 'l', 'e'], whileKw), (['f', 'o', 'r'], forKw),
  (['i', 'n'], inKw), (['o', 'f'], ofKw),
  (['i', 'n', 's', 't', 'a', 'n', 'c', 'e', 'o', 'f'], instanceofKw),
  (['r', 'e', 't', 'u', 'r', 'n'], returnKw), (['b', 'r', 'e', 'a', 'k'], breakKw),
  (['c', 'o', 'n', 't', 'i', 'n', 'u', 'e'], continueKw), (['f', 'n'], fnKw),
  (['e', 'n', 'u', 'm'], enumKw), (['m', 'a', 't', 'c', 'h'], matchKw),
  (['c', 'l', 'a', 's', 's'], classKw),
  (['i', 'n', 't', 'e', 'r', 'f', 'a', 'c', 'e'], interfaceKw),
  (['d', 'e', 'f', 'e', 'r'], deferKw), (['i', 'm', 'p', 'o', 'r', 't'], importKw),
  (['e', 'x', 'p', 'o', 'r', 't'], exportKw), (['a', 's', 'y', 'n', 'c'], asyncKw),
  (['a', 'w', 'a', 'i', 't'], awaitKw), (['y', 'i', 'e', 'l', 'd'], yieldKw)]

def staticText (kind : SyntaxKind) : Option (List Char) :=
  ((operators ++ keywords).find? (·.2 = kind)).map Prod.fst

theorem staticText_spelled :
    (operators ++ keywords).all (fun p => staticText p.2 == some p.1) = true := by decide

theorem staticText_of_mem (h : (text, kind) ∈ operators ++ keywords) :
    staticText kind = some text :=
  beq_iff_eq.mp (List.all_eq_true.mp staticText_spelled _ h)

end SyntaxKind

end AScript.Syntax
