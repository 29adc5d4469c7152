import AScript.Lib.EditScript

/-! Line differences: the edit script and its hunks (`stdlib/diff.rs`). -/

namespace AScript.Stdlib.Diff

open AScript.Lib AScript.Lib.Edit

/-- `v[i as usize]`: a negative index is beyond every length. -/
def getV (v : List Int) (i : Int) : Option Int := if i < 0 then none else v[i.toNat]?

def setV (v : List Int) (i x : Int) : Option (List Int) :=
  if 0 ≤ i ∧ i < v.length then some (v.set i.toNat x) else none

/-- `(x as usize) < n`. -/
def below (x : Int) (n : Nat) : Bool := 0 ≤ x && x < n

section Myers

variable (a b : List Nat) (offset : Int)

/-- Whether diagonal `k` is reached from above. -/
def goesDown (v : List Int) (d k : Int) : Option Bool :=
  if k = -d then some true
  else if k = d then some false
  else do return (← getV v (k - 1 + offset)) < (← getV v (k + 1 + offset))

def start (v : List Int) (d k : Int) : Option Int := do
  if ← goesDown offset v d k then getV v (k + 1 + offset)
  else return (← getV v (k - 1 + offset)) + 1

def snake (x y : Int) : Int × Int :=
  if below x a.length && below y b.length && a[x.toNat]? == b[y.toNat]? then snake (x + 1) (y + 1)
  else (x, y)
termination_by a.length - x.toNat
decreasing_by
  simp only [below, Bool.and_eq_true, decide_eq_true_eq] at *
  omega

def round (d : Int) : List Int → List Int → Option (Bool × List Int)
  | [], v => some (false, v)
  | k :: ks, v => do
    let x ← start offset v d k
    let (x, y) := snake a b x (x - k)
    let v ← setV v (k + offset) x
    if !below x a.length && !below y b.length then return (true, v)
    else round d ks v

/-- From `-d` to `d` in steps of two. -/
def diagonals (d : Nat) : List Int := (List.range (d + 1)).map fun i : Nat => -(d : Int) + 2 * i

/-- The rounds from `d` on, with the values before each of them. -/
def search : (left d : Nat) → List Int → List (List Int) → Option (Option Nat × List (List Int))
  | 0, _, _, traces => some (none, traces)
  | left + 1, d, v, traces => do
    let traces := traces ++ [v]
    let (found, v) ← round a b offset d (diagonals d) v
    if found then return (some d, traces) else search left (d + 1) v traces

def backSnake (prevX prevY : Int) (x y : Int) (script : List Edit) : List Edit :=
  if prevX < x ∧ prevY < y then backSnake prevX prevY (x - 1) (y - 1) (.equal :: script)
  else script
termination_by (x - prevX).toNat

/-- The rounds from `d` back. -/
def back (traces : List (List Int)) : (rounds : Nat) → (x y : Int) → List Edit → Option (List Edit)
  | 0, _, _, script => some script
  | d + 1, x, y, script => do
    let vd ← traces[d]?
    let k := x - y
    let down ← goesDown offset vd d k
    let prevK := if down then k + 1 else k - 1
    let prevX ← getV vd (prevK + offset)
    let prevY := prevX - prevK
    let script := backSnake prevX prevY x y script
    let script := if 0 < d then (if down then .insert else .delete) :: script else script
    back traces d prevX prevY script

end Myers

/-- `myers`. `Err` is `Except.error`; the script is built from its end. -/
def myers (a b : List Nat) (budget : Nat) : Option (Except Unit (List Edit)) :=
  let n := a.length
  let m := b.length
  if n + m > budget then some (.error ())
  else if n = 0 then some (.ok (List.replicate m .insert))
  else if m = 0 then some (.ok (List.replicate n .delete))
  else do
    let max := n + m
    let v := List.replicate (2 * max + 1) 0
    match ← search a b max (max + 1) 0 v [] with
    | (none, _) => return .error ()
    | (some d, traces) => return .ok (← back (max : Int) traces (d + 1) n m [])

def idOf [DecidableEq α] (dict : List α) (t : α) : List α × Nat :=
  if t ∈ dict then (dict, dict.idxOf t) else (dict ++ [t], dict.length)

def internFrom [DecidableEq α] (dict : List α) : List α → List α × List Nat
  | [] => (dict, [])
  | t :: ts =>
    let (dict, id) := idOf dict t
    let (dict, ids) := internFrom dict ts
    (dict, id :: ids)

def intern [DecidableEq α] (a b : List α) : List Nat × List Nat :=
  let (dict, ai) := internFrom [] a
  (ai, (internFrom dict b).2)

structure Hunk (α : Type) where
  tag : Edit
  aStart : Nat
  aEnd : Nat
  bStart : Nat
  bEnd : Nat
  lines : List α

def takeLine (a b : List α) (tag : Edit) (ai bi : Nat) : Option (α × Nat × Nat) :=
  match tag with
  | .equal => do return (← a[ai]?, ai + 1, bi + 1)
  | .delete => do return (← a[ai]?, ai + 1, bi)
  | .insert => do return (← b[bi]?, ai, bi + 1)

def takeRun (a b : List α) (tag : Edit) : List Edit → (ai bi : Nat) → List α →
    Option (List Edit × Nat × Nat × List α)
  | [], ai, bi, lines => some ([], ai, bi, lines)
  | t :: script, ai, bi, lines =>
    if t = tag then do
      let (line, ai, bi) ← takeLine a b tag ai bi
      takeRun a b tag script ai bi (lines ++ [line])
    else some (t :: script, ai, bi, lines)

/-- The hunks from both cursors on; a script of length `n` has at most `n` of them. -/
def groupFrom (a b : List α) : (fuel : Nat) → List Edit → (ai bi : Nat) → Option (List (Hunk α))
  | _, [], _, _ => some []
  | 0, _ :: _, _, _ => none
  | fuel + 1, tag :: script, ai, bi => do
    let (rest, ai', bi', lines) ← takeRun a b tag (tag :: script) ai bi []
    let hunks ← groupFrom a b fuel rest ai' bi'
    return { tag, aStart := ai, aEnd := ai', bStart := bi, bEnd := bi', lines } :: hunks

def groupHunks (script : List Edit) (a b : List α) : Option (List (Hunk α)) :=
  groupFrom a b script.length script 0 0

end AScript.Stdlib.Diff
