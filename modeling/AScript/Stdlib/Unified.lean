import AScript.Stdlib.DiffHunks

/-! Unified diffs and what applying one means (`stdlib/diff.rs`). -/

namespace AScript.Stdlib.Diff

open AScript.Lib AScript.Lib.Edit

abbrev Text := List Char

structure Lined where
  lines : List Text
  finalNewline : Bool

def splitLines (s : Text) : Lined :=
  if s = [] then ⟨[], true⟩
  else
    let finalNewline := s.getLast? == some '\n'
    let body := if finalNewline then s.dropLast else s
    ⟨body.splitOn '\n', finalNewline⟩

def sentinel : Text := ['\x00', '\x00', 'N', 'O', 'N', 'L', '\x00', '\x00']

def newlineAwareTokens (l : Lined) : List Text :=
  if l.finalNewline then l.lines
  else match l.lines.getLast? with
    | some last => l.lines.dropLast ++ [sentinel ++ last]
    | none => l.lines

structure Rec where
  op : Edit
  text : Text
  aIdx : Option Nat
  bIdx : Option Nat

section Render

variable (a b : Lined)

def recsFrom : List Edit → (ai bi : Nat) → Option (List Rec)
  | [], _, _ => some []
  | .equal :: script, ai, bi => do
    let text ← a.lines[ai]?
    return ⟨.equal, text, some ai, some bi⟩ :: (← recsFrom script (ai + 1) (bi + 1))
  | .delete :: script, ai, bi => do
    let text ← a.lines[ai]?
    return ⟨.delete, text, some ai, none⟩ :: (← recsFrom script (ai + 1) bi)
  | .insert :: script, ai, bi => do
    let text ← b.lines[bi]?
    return ⟨.insert, text, none, some bi⟩ :: (← recsFrom script ai (bi + 1))

/-- `usize` addition, which wraps around. -/
def addWrap (x y : Nat) : Nat := (x + y) % 2 ^ 64

/-- True from `lo` on and before `hi`. -/
def mark (lo hi : Nat) (v : List Bool) : List Bool :=
  v.mapIdx fun j m => m || (decide (lo ≤ j) && decide (j < hi))

/-- The marks of the changes from record `i` on, over those so far. -/
def markFrom (context n : Nat) : List Rec → (i : Nat) → List Bool → List Bool
  | [], _, v => v
  | r :: recs, i, v =>
    markFrom context n recs (i + 1)
      (if r.op = .equal then v
        else mark (i - context) (min (addWrap (addWrap i context) 1) n) v)

def inHunk (context : Nat) (recs : List Rec) : List Bool :=
  markFrom context recs.length recs 0 (List.replicate recs.length false)

/-- The maximal runs that are marked, the first of them begun with `seg`. -/
def segmentsFrom (seg : List α) : List (α × Bool) → List (List α)
  | [] => if seg.isEmpty then [] else [seg]
  | (r, true) :: recs => segmentsFrom (seg ++ [r]) recs
  | (_, false) :: recs =>
    if seg.isEmpty then segmentsFrom [] recs else seg :: segmentsFrom [] recs

abbrev Piece := Text × Bool

def Rec.noNl (r : Rec) : Bool :=
  let lastA := !a.lines.isEmpty && r.aIdx == some (a.lines.length - 1)
  let lastB := !b.lines.isEmpty && r.bIdx == some (b.lines.length - 1)
  match r.op with
  | .delete => lastA && !a.finalNewline
  | .insert => lastB && !b.finalNewline
  | .equal => (lastA && !a.finalNewline) || (lastB && !b.finalNewline)

def Rec.line (r : Rec) : Edit × Piece := (r.op, r.text, !r.noNl a b)

/-- `range_field`: the printed start, and the count. -/
def rangeField (start count : Nat) : Nat × Nat :=
  if count = 0 then (start - 1, 0) else (start, count)

/-- A hunk as it is printed. -/
structure UHunk where
  a : Nat × Nat
  b : Nat × Nat
  body : List (Edit × Piece)

/-- The 1-based start of a side whose first line in the hunk is `first`. -/
def startOf (first : Option Nat) (idx : Rec → Option Nat) (seg : List Rec) : Nat :=
  match first with
  | some s => s + 1
  | none => (((seg.head?.bind idx).map (· + 1)).getD 0)

def hunkOf (seg : List Rec) : UHunk :=
  let aSeg := seg.filter (·.op ≠ .insert)
  let bSeg := seg.filter (·.op ≠ .delete)
  { a := rangeField (startOf (aSeg.findSome? (·.aIdx)) (·.aIdx) seg) aSeg.length
    b := rangeField (startOf (bSeg.findSome? (·.bIdx)) (·.bIdx) seg) bSeg.length
    body := seg.map (Rec.line a b) }

def renderUnified (script : List Edit) (context : Nat) : Option (Option (List UHunk)) :=
  if script.all (· == .equal) then some none
  else do
    let recs ← recsFrom a b script 0 0
    return some ((segmentsFrom [] (recs.zip (inHunk context recs))).map (hunkOf a b))

end Render

def maxDiffLines : Nat := 200000

/-- The script that `unified_lines` renders. -/
def unifiedScript (a b : Text) : Option (Except Unit (List Edit)) :=
  let (ai, bi) := intern (newlineAwareTokens (splitLines a)) (newlineAwareTokens (splitLines b))
  myers ai bi maxDiffLines

/-- `Err` is `Except.error`. -/
def unifiedLines (a b : Text) (context : Nat) : Option (Except Unit (Option (List UHunk))) := do
  match ← unifiedScript a b with
  | .error () => return .error ()
  | .ok script => return .ok (← renderUnified (splitLines a) (splitLines b) script context)

def fieldText : Nat × Nat → Text
  | (start, count) =>
    if count = 1 then (toString start).toList
    else (toString start).toList ++ ',' :: (toString count).toList

def prefixOf : Edit → Char
  | .equal => ' '
  | .delete => '-'
  | .insert => '+'

def lineText : Edit × Piece → Text
  | (op, text, newline) =>
    prefixOf op :: text ++ '\n' ::
      if newline then [] else "\\ No newline at end of file\n".toList

def UHunk.text (h : UHunk) : Text :=
  "@@ -".toList ++ fieldText h.a ++ " +".toList ++ fieldText h.b ++ " @@\n".toList ++
    h.body.flatMap lineText

def outputText (fromFile toFile : Text) : Option (List UHunk) → Text
  | none => []
  | some hunks => "--- ".toList ++ fromFile ++ "\n+++ ".toList ++ toFile ++ '\n' ::
      hunks.flatMap UHunk.text

def consLine (c : Char) : List Piece → List Piece
  | [] => [([c], false)]
  | (l, newline) :: ls => (c :: l, newline) :: ls

def fileLines : Text → List Piece
  | [] => []
  | c :: s => if c = '\n' then ([], true) :: fileLines s else consLine c (fileLines s)

def concat (ls : List Piece) : Text :=
  ls.flatMap fun (l, newline) => if newline then l ++ ['\n'] else l

def oldLine : Edit × α → Option α
  | (.insert, _) => none
  | (_, p) => some p

def newLine : Edit × α → Option α
  | (.delete, _) => none
  | (_, p) => some p

def oldSide (ls : List (Edit × α)) : List α := ls.filterMap oldLine

def newSide (ls : List (Edit × α)) : List α := ls.filterMap newLine

def applyBody [DecidableEq α] : List (Edit × α) → List α → Option (List α × List α)
  | [], rest => some ([], rest)
  | (.insert, p) :: ls, rest => do
    let (out, rest) ← applyBody ls rest
    return (p :: out, rest)
  | (.equal, p) :: ls, q :: rest =>
    if p = q then do
      let (out, rest) ← applyBody ls rest
      return (p :: out, rest)
    else none
  | (.delete, p) :: ls, q :: rest => if p = q then applyBody ls rest else none
  | _ :: _, [] => none

def before (field : Nat × Nat) : Nat := if field.2 = 0 then field.1 else field.1 - 1

/-- The hunks on what is left after `done` lines. -/
def applyFrom (done : Nat) : List UHunk → List Piece → Option (List Piece)
  | [], rest => some rest
  | h :: hs, rest =>
    if before h.a < done ∨ rest.length < before h.a - done then none
    else do
      let (out, rest') ← applyBody h.body (rest.drop (before h.a - done))
      let tail ← applyFrom (before h.a + h.a.2) hs rest'
      return rest.take (before h.a - done) ++ out ++ tail

def applyHunks (hunks : List UHunk) (a : Text) : Option Text :=
  (applyFrom 0 hunks (fileLines a)).map concat

def Ordered (done : Nat) : List UHunk → Prop
  | [] => True
  | h :: hs => done ≤ before h.a ∧ Ordered (before h.a + h.a.2) hs

/-- The output is a unified diff of the texts. -/
structure Applies (a b : Text) (out : Option (List UHunk)) : Prop where
  yields : applyHunks (out.getD []) a = some b
  counts : ∀ h ∈ out.getD [], h.a.2 = (oldSide h.body).length ∧ h.b.2 = (newSide h.body).length
  ordered : Ordered 0 (out.getD [])
  empty : ∀ fromFile toFile, outputText fromFile toFile out = [] ↔ a = b

def tokenOf : Piece → Text
  | (l, newline) => if newline then l else sentinel ++ l

def tokens (s : Text) : List Text := newlineAwareTokens (splitLines s)

structure Chosen (a b : Text) (script : List Edit) : Prop where
  replays : Replays script (tokens a) (tokens b)
  shortest : ∀ s, Replays s (tokens a) (tokens b) → cost script ≤ cost s
  traced : Traced (tokens a) (tokens b) (cost script) (tokens a).length (tokens b).length script

def Anchored : List Edit → Prop
  | [] => True
  | .equal :: s =>
    let run := s.takeWhile (· ≠ .equal)
    (.insert ∈ run → .delete ∈ run) ∧ Anchored s
  | _ :: s => Anchored s

/-- The context does not wrap at the first change, the lines kept are the same with their newlines,
and without context every hunk after a kept line has lines of the old text. -/
structure Regular (a b : Text) (context : Nat) : Prop where
  fits : a = b ∨ commonPrefix (tokens a) (tokens b) + context + 1 < 2 ^ 64
  keeps : ∀ script, Chosen a b script → Replays script (fileLines a) (fileLines b)
  anchored : 0 < context ∨ ∀ script, Chosen a b script → Anchored script

end AScript.Stdlib.Diff
