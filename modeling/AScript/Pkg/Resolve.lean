import Mathlib.Algebra.Ring.Nat
import Mathlib.Tactic.Common

namespace AScript.Pkg

structure Version where
  major : Nat
  minor : Nat
  patch : Nat
  deriving DecidableEq

namespace Version

def lt (a b : Version) : Prop :=
  a.major < b.major ∨ a.major = b.major ∧
    (a.minor < b.minor ∨ a.minor = b.minor ∧ a.patch < b.patch)

instance : LT Version := ⟨lt⟩

instance (a b : Version) : Decidable (a < b) := inferInstanceAs (Decidable (_ ∨ _))

def parseComponent : Option (List Char) → Except String Nat
  | none => .error "expected MAJOR.MINOR.PATCH"
  | some cs =>
    if cs = [] ∨ cs.any (!·.isDigit) then
      .error ("invalid version component '" ++ String.ofList cs ++ "'")
    else
      let n := cs.foldl (fun n c => n * 10 + (c.toNat - '0'.toNat)) 0
      if n < 2 ^ 64 then .ok n else .error "number too large to fit in target type"

/-- `MAJOR.MINOR.PATCH` after an optional `v`. -/
def parse (s : String) : Except String Version := do
  let core := match s.toList with
    | 'v' :: rest => rest
    | cs => cs
  let parts := core.splitOn '.'
  let major ← parseComponent parts[0]?
  let minor ← parseComponent parts[1]?
  let patch ← parseComponent parts[2]?
  if parts[3]?.isSome then .error ("expected MAJOR.MINOR.PATCH, found '" ++ s ++ "'")
  else return ⟨major, minor, patch⟩

end Version

inductive GitPin
  | tag (t : String)
  | rev (r : String)
  deriving DecidableEq

inductive DepSource
  | git (url : String) (pin : GitPin)
  | url (url : String)
  | path (path : String)
  | registry (req : String)
  deriving DecidableEq

def describe : DepSource → String
  | .git url (.tag t) => "git " ++ url ++ "@" ++ t
  | .git url (.rev r) => "git " ++ url ++ "@" ++ r
  | .url url => "url " ++ url
  | .path path => "path " ++ path
  | .registry req => "registry " ++ req

abbrev Deps := List (String × DepSource)

structure FetchedDep where
  resolved : String
  rev : Option String
  integrity : Option String
  root : String
  deps : Deps
  deriving DecidableEq

/-- A fetch, given the declared name, the source and the directory it is required from. -/
abbrev DepFetcher := String → DepSource → String → Except String FetchedDep

structure Resolved where
  name : String
  source : DepSource
  requirement : Option String
  resolved : String
  rev : Option String
  integrity : Option String
  root : String
  deriving DecidableEq

structure Selection where
  source : DepSource
  version : Option Version
  requirer : String
  fetched : FetchedDep
  deriving DecidableEq

abbrev Selected := Std.TreeMap String Selection

def tagVersion (name : String) : DepSource → Except String (Option Version)
  | .git _ (.tag t) =>
    match Version.parse t with
    | .ok v => .ok (some v)
    | .error e =>
      .error ("git dependency '" ++ name ++ "': tag '" ++ t ++ "' is not a version: " ++ e)
  | _ => .ok none

def sameGitUrl : DepSource → DepSource → Bool
  | .git ua _, .git ub _ => ua = ub
  | _, _ => false

def conflictMsg (name reqA : String) (srcA : DepSource) (reqB : String) (srcB : DepSource) :
    String :=
  "dependency conflict on '" ++ name ++ "': " ++ reqA ++ " requires " ++ describe srcA ++ " but " ++
    reqB ++ " requires " ++ describe srcB ++
    " (a single version per package is selected; reconcile the two)"

def select (fetch : DepFetcher) (requirer base name : String) (src : DepSource)
    (selected : Selected) : Except String (Selected × Option FetchedDep) := do
  let fetched ← fetch name src base
  let version ← tagVersion name src
  return (selected.insert name ⟨src, version, requirer, fetched⟩, some fetched)

def visit (fetch : DepFetcher) (requirer base : String) (stack : List String) (name : String)
    (src : DepSource) (selected : Selected) : Except String (Selected × Option FetchedDep) :=
  match src with
  | .registry req =>
    .error ("bare-version dependency '" ++ name ++ "' (\"" ++ req ++
      "\") requires a registry, which is not available yet")
  | src =>
    if name ∈ stack then
      .error ("dependency cycle detected: " ++ " -> ".intercalate (stack ++ [name]))
    else
      match selected[name]? with
      | none => select fetch requirer base name src selected
      | some existing =>
        match tagVersion name src with
        | .error e => .error e
        | .ok newVersion =>
          match existing.version, newVersion with
          | some cur, some new =>
            if sameGitUrl existing.source src then
              if cur < new then select fetch requirer base name src selected
              else .ok (selected, none)
            else .error (conflictMsg name existing.requirer existing.source requirer src)
          | _, _ =>
            if existing.source = src then .ok (selected, none)
            else .error (conflictMsg name existing.requirer existing.source requirer src)

def walkDeps (fetch : DepFetcher)
    (child : String → FetchedDep → Selected → Option (Except String Selected))
    (requirer base : String) (stack : List String) :
    Deps → Selected → Option (Except String Selected)
  | [], selected => some (.ok selected)
  | (name, src) :: rest, selected =>
    match visit fetch requirer base stack name src selected with
    | .error e => some (.error e)
    | .ok (selected, none) => walkDeps fetch child requirer base stack rest selected
    | .ok (selected, some fetched) =>
      match child name fetched selected with
      | none => none
      | some (.error e) => some (.error e)
      | some (.ok selected) => walkDeps fetch child requirer base stack rest selected

def walk (fetch : DepFetcher) :
    Nat → String → Deps → String → Selected → List String → Option (Except String Selected)
  | 0, _, _, _, _, _ => none
  | fuel + 1, requirer, deps, base, selected, stack =>
    walkDeps fetch (fun name fetched selected =>
      walk fetch fuel name fetched.deps fetched.root selected (stack ++ [name]))
      requirer base stack deps selected

def Selection.entry (name : String) (s : Selection) : Resolved where
  name := name
  source := s.source
  requirement := match s.source with
    | .git _ (.tag t) => some t
    | _ => none
  resolved := s.fetched.resolved
  rev := s.fetched.rev
  integrity := s.fetched.integrity
  root := s.fetched.root

def resolve (fetch : DepFetcher) (fuel : Nat) (rootDeps : Deps) (rootDir : String) :
    Option (Except String (List Resolved)) :=
  (walk fetch fuel "(root)" rootDeps rootDir ∅ []).map fun
    | .error e => .error e
    | .ok selected => .ok (selected.toList.map fun p => p.2.entry p.1)

end AScript.Pkg
