import AScript.Lib.FileTreeGrowth

/-! Extraction of archives to disk (`stdlib/archive.rs`). -/

namespace AScript.Stdlib.Extract

open AScript.Lib

abbrev Name := List Char

/-- An absolute path without dots. -/
abbrev Path := List Name

def nul : Char := Char.ofNat 0

def backslash : Char := Char.ofNat 92

def isSeparator (c : Char) : Bool := c = '/' || c = backslash

def hasDrive : List Char → Bool
  | letter :: ':' :: _ => letter.isAlpha
  | _ => false

def quoted (name : List Char) : String := "archive entry '" ++ String.ofList name ++ "'"

def display (path : Path) : String := String.ofList (path.flatMap ('/' :: ·))

def pushPart (parts : List Name) (raw : Name) : Option (List Name) :=
  if raw = [] ∨ raw = ['.'] then some parts
  else if raw = ['.', '.'] then if parts = [] then none else some parts.dropLast
  else some (parts ++ [raw])

def classifyEntryName (name : List Char) : Except String (List Name) :=
  if nul ∈ name then .error (quoted name ++ " contains a NUL byte")
  else if ['/'] <+: name ∨ [backslash] <+: name then .error (quoted name ++ " is an absolute path")
  else if hasDrive name then .error (quoted name ++ " is an absolute (drive) path")
  else match (name.splitOnP isSeparator).foldlM pushPart [] with
    | none => .error (quoted name ++ " escapes the destination directory")
    | some [] => .error (quoted name ++ " has no valid path components")
    | some parts => .ok parts

inductive LinkPolicy
  | skip
  | error

inductive EntryKind
  | file
  | dir
  | link
  deriving DecidableEq

structure Entry where
  name : List Char
  kind : EntryKind
  declared : Nat
  mode : Nat
  data : Except String (List UInt8)

def maxEntryBytes : Nat := 256 * 1024 * 1024

/-- A change on disk: the tree before it, the path that was asked for, and where that led. -/
structure Touch where
  before : FileTree Name
  path : Path
  place : Path

structure Disk where
  tree : FileTree Name
  touched : List Touch

abbrev Call := FileTree Name → List (Seg Name) → Except OsError (Path × FileTree Name)

def Disk.act (d : Disk) (path : Path) (call : Call) : Except OsError Unit × Disk :=
  match call d.tree (path.map .name) with
  | .ok (place, tree) => (.ok (), ⟨tree, d.touched ++ [⟨d.tree, path, place⟩]⟩)
  | .error e => (.error e, d)

section

-- How far paths are followed, how the system puts its errors, the mode of a new file, and which
-- write breaks off behind how many bytes.
variable (limit : Nat) (osText : OsError → String) (newMode : Nat) (fault : Nat → Option Nat)

def createDirAll (tree : FileTree Name) :
    List (Seg Name) → Except OsError Unit × FileTree Name
  | [] => (.ok (), tree)
  | word :: parents =>
    let path := (word :: parents).reverse
    let orDir (e : OsError) (tree : FileTree Name) : Except OsError Unit × FileTree Name :=
      match tree.lookup limit true path with
      | .ok (_, .dir) => (.ok (), tree)
      | _ => (.error e, tree)
    match tree.mkdir limit path with
    | .ok (_, tree) => (.ok (), tree)
    | .error .notFound =>
      match createDirAll tree parents with
      | (.error e, tree) => (.error e, tree)
      | (.ok (), tree) =>
        match tree.mkdir limit path with
        | .ok (_, tree) => (.ok (), tree)
        | .error e => orDir e tree
    | .error e => orDir e tree

def wordsFrom (cwd : Path) (dest : List Char) : List (Seg Name) :=
  (if ['/'] <+: dest then [] else cwd.map .name) ++ (dest.splitOn '/').map segOf

/-- The empty path leads nowhere, and no path has a NUL byte. -/
def lookupDest (tree : FileTree Name) (cwd : Path) (dest : List Char) :
    Except OsError (Path × FileNode Name) :=
  if nul ∈ dest then .error .other
  else if dest = [] then .error .notFound
  else tree.lookup limit true (wordsFrom cwd dest)

def createDest (tree : FileTree Name) (cwd : Path) (dest : List Char) :
    Except OsError Unit × FileTree Name :=
  if nul ∈ dest then (.error .other, tree)
  else if dest = [] then (.ok (), tree)
  else createDirAll limit tree (wordsFrom cwd dest).reverse

/-- The destination is created if it is missing. -/
def jailRoot (tree : FileTree Name) (cwd : Path) (dest : List Char) :
    Except String Path × FileTree Name :=
  let made : Except OsError Unit × FileTree Name :=
    match lookupDest limit tree cwd dest with
    | .ok _ => (.ok (), tree)
    | .error _ => createDest limit tree cwd dest
  match made with
  | (.error e, tree) => (.error ("archive extract: cannot create dest '" ++ String.ofList dest ++
      "': " ++ osText e), tree)
  | (.ok (), tree) =>
    match lookupDest limit tree cwd dest with
    | .ok (root, _) => (.ok root, tree)
    | .error e => (.error ("archive extract: cannot resolve dest '" ++ String.ofList dest ++
        "': " ++ osText e), tree)

def safeWritePath (root : Path) (name : List Char) : Except String (Path × List Name) := do
  let rel ← classifyEntryName name
  if ¬ root <+: root ++ rel then .error (quoted name ++ " escapes the destination directory")
  else .ok (root ++ rel, rel)

def makeDirsNofollow (cur : Path) : List Name → Bool → Disk → Except String Unit × Disk
  | [], _, d => (.ok (), d)
  | comp :: comps, leafIsDir, d =>
    if comps = [] ∧ leafIsDir = false then (.ok (), d)
    else match d.tree.lookup limit false ((cur ++ [comp]).map .name) with
      | .ok (_, .link ..) => (.error ("archive extract: path component '" ++
          display (cur ++ [comp]) ++ "' is a symlink (refused)"), d)
      | .ok (_, .file ..) => (.error ("archive extract: path component '" ++
          display (cur ++ [comp]) ++ "' is not a directory"), d)
      | .ok (_, .dir) => makeDirsNofollow (cur ++ [comp]) comps leafIsDir d
      | .error _ =>
        match d.act (cur ++ [comp]) (·.mkdir limit) with
        | (.ok (), d) => makeDirsNofollow (cur ++ [comp]) comps leafIsDir d
        | (.error e, d) => (.error ("archive extract: mkdir failed: " ++ osText e), d)

/-- `std::fs::write`: a write that breaks off leaves the bytes that got through. -/
def Disk.write (d : Disk) (path : Path) (data : List UInt8) (brokenOff : Option Nat) :
    Except OsError Unit × Disk :=
  match d.act path (·.write limit · (brokenOff.elim data data.take) newMode) with
  | (.ok (), d) => (if brokenOff.isSome then .error .other else .ok (), d)
  | (.error e, d) => (.error e, d)

def writeEntry (root : Path) (rel : List Name) (path : Path) (data : List UInt8) (mode : Nat)
    (written : List Path) (d : Disk) : Except String Unit × List Path × Disk :=
  match makeDirsNofollow limit osText root rel false d with
  | (.error e, d) => (.error e, written, d)
  | (.ok (), d) =>
    match d.tree.lookup limit false (path.map .name) with
    | .ok (_, .link ..) =>
      (.error ("archive extract: target '" ++ display path ++ "' is a symlink (refused)"),
        written, d)
    | _ =>
      match d.write limit newMode path data (fault written.length) with
      | (.error e, d) => (.error ("archive extract: write failed: " ++ osText e), written, d)
      | (.ok (), d) => (.ok (), written ++ [path], (d.act path (·.chmod limit · mode)).2)

def rollback (written : List Path) (d : Disk) : Disk :=
  written.reverse.foldl (fun d f => (d.act f (·.remove limit)).2) d

def extractEntry (policy : LinkPolicy) (root : Path) (entry : Entry) (written : List Path)
    (d : Disk) : Except String Unit × List Path × Disk :=
  if entry.kind = .link then
    match policy with
    | .skip => (.ok (), written, d)
    | .error =>
      (.error (quoted entry.name ++ " is a link (refused: links=\"error\")"), written, d)
  else if maxEntryBytes < entry.declared then
    (.error ("archive entry size " ++ toString entry.declared ++ " exceeds " ++
      toString maxEntryBytes ++ " byte cap"), written, d)
  else match safeWritePath root entry.name with
    | .error e => (.error e, written, d)
    | .ok (path, rel) =>
      if entry.kind = .dir then
        let made := makeDirsNofollow limit osText root rel true d
        (made.1, written, made.2)
      else match entry.data with
        | .error e => (.error ("archive entry data failed: " ++ e), written, d)
        | .ok data => writeEntry limit osText newMode fault root rel path data entry.mode written d

def extractEntries (policy : LinkPolicy) (root : Path) :
    List (Except String Entry) → List Path → Disk → Except String Unit × Disk
  | [], _, d => (.ok (), d)
  | .error e :: _, written, d => (.error e, rollback limit written d)
  | .ok entry :: entries, written, d =>
    match extractEntry limit osText newMode fault policy root entry written d with
    | (.ok (), written, d) => extractEntries policy root entries written d
    | (.error e, written, d) => (.error e, rollback limit written d)

/-- `run_tar_extract` and `run_zip_extract`, given what their readers make of the bytes. -/
def runExtract (entries : Except String (List (Except String Entry))) (cwd : Path)
    (dest : List Char) (policy : LinkPolicy) (tree : FileTree Name) : Except String Unit × Disk :=
  match jailRoot limit osText tree cwd dest with
  | (.error e, tree) => (.error e, ⟨tree, []⟩)
  | (.ok root, tree) =>
    match entries with
    | .error e => (.error e, ⟨tree, []⟩)
    | .ok entries => extractEntries limit osText newMode fault policy root entries [] ⟨tree, []⟩

end

theorem createDirAll_grows (limit : Nat) : ∀ (words : List (Seg Name)) (t : FileTree Name),
    t.Grows (createDirAll limit t words).2
  | [], t => .refl t
  | word :: parents, t => by
    rw [createDirAll]
    dsimp only
    split
    next hmk => exact FileTree.mkdir_grows hmk
    next =>
      have hgrows := createDirAll_grows limit parents t
      split
      next hmade =>
        rw [hmade] at hgrows
        exact hgrows
      next hmade =>
        rw [hmade] at hgrows
        split
        next hmk => exact hgrows.trans (FileTree.mkdir_grows hmk)
        next => split <;> exact hgrows
    next => split <;> exact .refl t

end AScript.Stdlib.Extract
