import AScript.Bundle.LogicalKeys

/-! The module loader (`vm/run.rs`) and the builder of archives (`lib.rs`). -/

namespace AScript.Bundle

open AScript.Lib

inductive Item (S Err : Type)
  | act (f : S → Except Err S)
  | imp (s : Specifier)

abbrev Chunk (S Err : Type) := List (Item S Err)

/-- The compiled module of each source file. No `.aso` files stand beside them. -/
abbrev Tree (S Err : Type) := List Text → Option (Chunk S Err)

inductive CacheKey
  | disk (path : List Text)
  | archive (key : Text)
  deriving DecidableEq

inductive Fault (Err : Type)
  | raised (e : Err)
  | cannotFind (source : Text)
  deriving DecidableEq

/-- The cache of loaded modules, the top levels that were started, and the program's own state. -/
structure Run (S : Type) where
  fileModules : List CacheKey
  ran : List CacheKey
  state : S
  deriving DecidableEq

/-- `none` when the fuel runs out. -/
abbrev Result (S Err : Type) := Option (Except (Fault Err) Unit × Run S)

def runItems (load : Specifier → Run S → Result S Err) : Chunk S Err → Run S → Result S Err
  | [], r => some (.ok (), r)
  | .act f :: items, r =>
    match f r.state with
    | .ok state => runItems load items { r with state := state }
    | .error e => some (.error (.raised e), r)
  | .imp s :: items, r =>
    match load s r with
    | some (.ok (), r) => runItems load items r
    | stopped => stopped

def runModuleBody (load : List Text → Text → Specifier → Run S → Result S Err)
    (chunk : Chunk S Err) (cacheKey : CacheKey) (moduleDir : List Text) (logicalDir : Text)
    (r : Run S) : Result S Err :=
  match runItems (load moduleDir logicalDir) chunk
      { r with fileModules := cacheKey :: r.fileModules, ran := r.ran ++ [cacheKey] } with
  | some (.error e, r) => some (.error e, { r with fileModules := r.fileModules.erase cacheKey })
  | done => done

def loadArchivedModule (load : List Text → Text → Specifier → Run S → Result S Err)
    (chunk : Chunk S Err) (logicalKey : Text) (moduleDir : List Text) (r : Run S) : Result S Err :=
  if .archive logicalKey ∈ r.fileModules then some (.ok (), r)
  else runModuleBody load chunk (.archive logicalKey) moduleDir (logicalParent logicalKey) r

def loadDiskModule (tree : Tree S Err) (load : List Text → Text → Specifier → Run S → Result S Err)
    (moduleDir : List Text) (logicalDir : Text) (s : Specifier) (r : Run S) : Result S Err :=
  let canon := moduleFile moduleDir s.text
  if .disk canon ∈ r.fileModules then some (.ok (), r)
  else match tree canon with
    | some chunk => runModuleBody load chunk (.disk canon) canon.dropLast logicalDir r
    | none => some (.error (.cannotFind s.text), r)

def loadFileModule (tree : Tree S Err) (archive : Option (List (Text × Chunk S Err))) :
    Nat → List Text → Text → Specifier → Run S → Result S Err
  | 0, _, _, _, _ => none
  | fuel + 1, moduleDir, logicalDir, s, r =>
    match archive.bind (·.lookup (joinLogical logicalDir s.text)) with
    | some chunk => loadArchivedModule (loadFileModule tree archive fuel) chunk
        (joinLogical logicalDir s.text) moduleDir r
    | none => loadDiskModule tree (loadFileModule tree archive fuel) moduleDir logicalDir s r

/-- The entry is no module of the cache. -/
def runProgram (tree : Tree S Err) (archive : Option (List (Text × Chunk S Err))) (fuel : Nat)
    (moduleDir : List Text) (main : Chunk S Err) (state : S) : Result S Err :=
  runItems (loadFileModule tree archive fuel moduleDir []) main ⟨[], [], state⟩

def resolveImport (dir : List Text) (source : Text) : RawPath :=
  if (extension (join dir source)).isNone then withExtension (join dir source) ['a', 's']
  else join dir source

def resolveModuleFile (target : RawPath) : List Text :=
  if (extension target).map (·.map Char.toLower) = some ['a', 's'] then canonicalize target
  else canonicalize (withExtension target ['a', 's'])

structure Pending where
  path : List Text
  key : Text
  logicalDir : Text

def enqueue (tree : Tree S Err) (item : Pending) :
    Chunk S Err → List (List Text) → List Pending → Option (List (List Text) × List Pending)
  | [], seen, queue => some (seen, queue)
  | .act _ :: items, seen, queue => enqueue tree item items seen queue
  | .imp s :: items, seen, queue =>
    let dep := resolveModuleFile (resolveImport item.path.dropLast s.text)
    let key := joinLogical item.logicalDir s.text
    if (tree dep).isNone then none
    else if dep ∈ seen then enqueue tree item items seen queue
    else enqueue tree item items (seen ++ [dep]) (queue ++ [⟨dep, key, logicalParent key⟩])

def compileQueue (tree : Tree S Err) : Nat → List (List Text) → List Pending →
    List (Text × Chunk S Err) → Option (List (Text × Chunk S Err))
  | 0, _, _, _ => none
  | _ + 1, _, [], modules => some modules
  | fuel + 1, seen, item :: queue, modules => do
    let chunk ← tree item.path
    let (seen, queue) ← enqueue tree item chunk seen queue
    compileQueue tree fuel seen queue (modules ++ [(item.key, chunk)])

/-- Before the unused is taken out. -/
def compileArchive (tree : Tree S Err) (fuel : Nat) (dir : List Text) (entry : Text) :
    Option (List (Text × Chunk S Err)) :=
  compileQueue tree fuel [dir ++ [entry]] [⟨dir ++ [entry], entry, []⟩] []

end AScript.Bundle
