import AScript.Syntax.CstParser

/-! The tree made from the parser's events (`syntax/tree_builder.rs`). `none` is a panic. -/

namespace AScript.Syntax

inductive Tree
  | token (kind : SyntaxKind) (text : List Char)
  | node (kind : SyntaxKind) (children : List Tree)

def leafText (kind : SyntaxKind) (text : List Char) : List Char := kind.staticText.getD text

mutual
def Tree.text : Tree → List Char
  | .token kind text => leafText kind text
  | .node _ children => Tree.texts children

def Tree.texts : List Tree → List Char
  | [] => []
  | t :: ts => t.text ++ Tree.texts ts
end

structure GreenBuilder where
  parents : List (SyntaxKind × Nat)
  children : List Tree

namespace GreenBuilder

def token (b : GreenBuilder) (kind : SyntaxKind) (text : List Char) : GreenBuilder :=
  { b with children := b.children ++ [.token kind text] }

def startNode (b : GreenBuilder) (kind : SyntaxKind) : GreenBuilder :=
  { b with parents := (kind, b.children.length) :: b.parents }

def finishNode (b : GreenBuilder) : Option GreenBuilder :=
  match b.parents with
  | [] => none
  | (kind, first) :: parents =>
    some ⟨parents, b.children.take first ++ [.node kind (b.children.drop first)]⟩

def finish (b : GreenBuilder) : Option Tree :=
  match b.children with
  | [.node kind children] => some (.node kind children)
  | _ => none

end GreenBuilder

/-- Takes the chain of parents that starts at `fp` out of the events; `kinds` are those met. -/
def takeChain : Nat → List Event → Option Nat → List SyntaxKind →
    Option (List Event × List SyntaxKind)
  | _, events, none, kinds => some (events, kinds)
  | 0, _, some _, _ => none
  | fuel + 1, events, some idx, kinds =>
    match events[idx]? with
    | some (.start kind fp) =>
      takeChain fuel (events.set idx (.start .tombstone none)) fp (kinds ++ [kind])
    | some _ => some (events, kinds)
    | none => none

/-- The loop from position `i` on, with `n` positions left. -/
def resolveFrom : Nat → Nat → List Event → Option (List Event)
  | 0, _, _ => some []
  | n + 1, i, events =>
    match events[i]? with
    | some (.start kind fp) =>
      if kind = .tombstone then resolveFrom n (i + 1) events
      else do
        let (events, kinds) ← takeChain events.length events fp [kind]
        let out ← resolveFrom n (i + 1) events
        pure (kinds.reverse.map (.start · none) ++ out)
    | some e => (resolveFrom n (i + 1) events).map (e :: ·)
    | none => none

def resolveForwardParents (events : List Event) : Option (List Event) :=
  resolveFrom events.length 0 events

/-- `rest` are the tokens from the cursor on. -/
structure Build where
  builder : GreenBuilder
  rest : List LexToken
  depth : Nat

namespace Build

def flushTrivia (b : Build) : Build :=
  { b with
    builder := (b.rest.takeWhile (·.kind.isTrivia)).foldl
      (fun g t => g.token t.kind t.text) b.builder
    rest := b.rest.dropWhile (·.kind.isTrivia) }

def step (b : Build) : Event → Option Build
  | .start kind _ =>
    some (if kind = .tombstone then b
      else { b with builder := b.builder.startNode kind, depth := b.depth + 1 })
  | .finish =>
    if b.depth = 0 then none
    else
      let b := { b with depth := b.depth - 1 }
      let b := if b.depth = 0 then b.flushTrivia else b
      b.builder.finishNode.map fun builder => { b with builder }
  | .token kind =>
    let b := b.flushTrivia
    match b.rest with
    | [] => none
    | t :: rest => some { b with builder := b.builder.token kind t.text, rest }
  | .error _ => some b

def run (b : Build) : List Event → Option Build
  | [] => some b
  | e :: es => (b.step e).bind (run · es)

end Build

def buildTree (parse : Parse) : Option Tree := do
  let resolved ← resolveForwardParents parse.events
  let b ← Build.run ⟨⟨[], []⟩, parse.tokens, 0⟩ resolved
  b.builder.finish

end AScript.Syntax
