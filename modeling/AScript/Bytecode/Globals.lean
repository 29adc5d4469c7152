import AScript.Lib.IndexMap
import Mathlib.Algebra.Ring.Nat

/-! Module globals, and what a site remembers of them (`vm/adapt.rs`, `vm/run.rs`). -/

namespace AScript.Bytecode.Globals

open AScript.Lib

def builtinNames : List String := [
  "print", "Ok", "Err", "assert", "recover", "test", "len", "type", "range", "exit", "int", "float",
  "run_in_worker"]

inductive GlobalCache (V : Type)
  | cold
  | cached (value : V) (version : Nat)
  | indexBound (idx structGen : Nat)

namespace GlobalCache

def get : GlobalCache V → Nat → Option V
  | cached value version, current => if version = current then some value else none
  | _, _ => none

def getIndex : GlobalCache V → Nat → Option Nat
  | indexBound idx structGen, current => if structGen = current then some idx else none
  | _, _ => none

end GlobalCache

structure GlobalSlot (V : Type) where
  value : V
  mutable : Bool

/-- The values, and the environment of class bodies with its two operations. -/
structure World where
  V : Type
  builtin : String → V
  E : Type
  /-- Fails when the name is defined. -/
  define : E → String → V → Option E
  assign : E → String → V → E

/-- What the handlers touch. A site is a chunk and an offset in it. -/
structure Vm (w : World) (S : Type) where
  userGlobals : IndexMap String (GlobalSlot w.V)
  globalVersion : Nat
  structGen : Nat
  classEnv : Option w.E
  caches : S → GlobalCache w.V

inductive Outcome (V S : Type)
  | pushed (v : V)
  | done
  | panic (site : Option S) (message : String)
  /-- An `expect` fails, or a vector is full. -/
  | crash

inductive Operand
  | str (name : String)
  | other (shown : String)

inductive Op
  | getGlobal (operand : Operand)
  | defineGlobal (operand : Operand) (mutable : Bool)
  | setGlobal (operand : Operand)

/-- `saturating_add(1)`. -/
def bump (n : Nat) : Nat := min (n + 1) (2 ^ 64 - 1)

/-- A vector holds no more than `isize::MAX` entries. -/
def maxEntries : Nat := 2 ^ 63 - 1

variable {w : World} {S : Type}

namespace Vm

def fresh (classEnv : Option w.E) : Vm w S where
  userGlobals := .empty
  globalVersion := 0
  structGen := 0
  classEnv
  caches _ := .cold

variable (vm : Vm w S)

def setCache [DecidableEq S] (site : S) (c : GlobalCache w.V) : Vm w S :=
  { vm with caches := fun s => if s = site then c else vm.caches s }

def userGlobalValueAt (idx : Nat) : Option w.V := (vm.userGlobals.getIndex idx).map (·.2.value)

def getUserGlobalFull (name : String) : Option (Nat × w.V) := do
  let idx ← vm.userGlobals.getIndexOf name
  let (_, slot) ← vm.userGlobals.getIndex idx
  return (idx, slot.value)

def userGlobalMutable (name : String) : Option Bool := (vm.userGlobals.get name).map (·.mutable)

def setUserGlobalAt (idx : Nat) (value : w.V) : Option (Bool × Vm w S) := do
  let (name, slot) ← vm.userGlobals.getIndex idx
  if slot.mutable then
    return (true, { vm with
      userGlobals := vm.userGlobals.setAt idx { slot with value }
      classEnv := vm.classEnv.map (w.assign · name value) })
  else return (false, vm)

def updateUserGlobal (name : String) (value : w.V) : Vm w S :=
  { vm with
    userGlobals :=
      match vm.userGlobals.getIndexOf name, vm.userGlobals.get name with
      | some idx, some slot => vm.userGlobals.setAt idx { slot with value }
      | _, _ => vm.userGlobals
    classEnv := vm.classEnv.map (w.assign · name value) }

def defineUserGlobal (name : String) (value : w.V) (mutable : Bool) : Vm w S :=
  { vm with
    userGlobals := vm.userGlobals.insert name { value, mutable }
    globalVersion := bump vm.globalVersion
    structGen := bump vm.structGen
    classEnv := vm.classEnv.map fun env =>
      match w.define env name value with
      | some env => env
      | none => w.assign env name value }

end Vm

section Handlers

variable [DecidableEq S] (specialize : Bool) (vm : Vm w S) (site : S)

def notString (op shown : String) : String :=
  op ++ " operand is not a string constant: " ++ shown

def resolveGlobal (name : String) : Outcome w.V S × Vm w S :=
  match vm.getUserGlobalFull name with
  | some (idx, v) =>
    (.pushed v, if specialize then vm.setCache site (.indexBound idx vm.structGen) else vm)
  | none =>
    if name ∈ builtinNames then
      (.pushed (w.builtin name),
        if specialize then vm.setCache site (.cached (w.builtin name) vm.globalVersion) else vm)
    else (.panic (some site) ("undefined variable '" ++ name ++ "'"), vm)

/-- `Op::GetGlobal`. -/
def getGlobal : Operand → Outcome w.V S × Vm w S
  | .other shown => (.panic (some site) (notString "GET_GLOBAL" shown), vm)
  | .str name =>
    let cache := vm.caches site
    match if specialize then cache.getIndex vm.structGen else none with
    | some idx =>
      match vm.userGlobalValueAt idx with
      | some v => (.pushed v, vm)
      | none => (.crash, vm)
    | none =>
      match if specialize then cache.get vm.globalVersion else none with
      | some v => (.pushed v, vm)
      | none => resolveGlobal specialize vm site name

/-- `Op::DefineGlobal`. The panic has no span. -/
def defineGlobal (mutable : Bool) (v : w.V) : Operand → Outcome w.V S × Vm w S
  | .other shown => (.panic (some site) (notString "DEFINE_GLOBAL" shown), vm)
  | .str name =>
    if vm.userGlobals.containsKey name then
      (.panic none ("'" ++ name ++ "' is already defined in this scope"), vm)
    else if maxEntries ≤ vm.userGlobals.len then (.crash, vm)
    else (.done, vm.defineUserGlobal name v mutable)

def immutableBinding (name : String) : String :=
  "cannot assign to immutable binding '" ++ name ++ "'"

def assignGlobal (name : String) (v : w.V) : Outcome w.V S × Vm w S :=
  match vm.userGlobalMutable name with
  | some true =>
    let vm := vm.updateUserGlobal name v
    match if specialize then vm.getUserGlobalFull name else none with
    | some (idx, _) => (.done, vm.setCache site (.indexBound idx vm.structGen))
    | none => (.done, vm)
  | some false => (.panic (some site) (immutableBinding name), vm)
  | none => (.panic (some site) ("cannot assign to undefined variable '" ++ name ++ "'"), vm)

/-- `Op::SetGlobal`. -/
def setGlobal (v : w.V) : Operand → Outcome w.V S × Vm w S
  | .other shown => (.panic (some site) (notString "SET_GLOBAL" shown), vm)
  | .str name =>
    match (if specialize then (vm.caches site).getIndex vm.structGen else none).bind
        (vm.setUserGlobalAt · v) with
    | some (true, vm) => (.done, vm)
    | some (false, vm) => (.panic (some site) (immutableBinding name), vm)
    | none => assignGlobal specialize vm site name v

def globalOp (op : Op) (v : w.V) : Outcome w.V S × Vm w S :=
  match op with
  | .getGlobal operand => getGlobal specialize vm site operand
  | .defineGlobal operand mutable => defineGlobal vm site mutable v operand
  | .setGlobal operand => setGlobal specialize vm site v operand

def syncBurst (op : Op) (v : w.V) : Outcome w.V S × Vm w S := globalOp specialize vm site op v

def runLoop (op : Op) (v : w.V) : Outcome w.V S × Vm w S := globalOp specialize vm site op v

end Handlers

inductive Lane
  | burst
  | loop

inductive Event (V S : Type)
  | exec (lane : Lane) (site : S) (v : V)
  | seed (profile : List S)

section Runs

variable [DecidableEq S] (code : S → Option Op)

/-- The global seeds of `seed_chunk`, at the sites a profile names. -/
def seedChunk (vm : Vm w S) (profile : List S) : Vm w S :=
  profile.foldl (fun vm site =>
    match code site with
    | some (.getGlobal (.str name)) =>
      if name ∈ builtinNames then vm.setCache site (.cached (w.builtin name) vm.globalVersion)
      else vm
    | _ => vm) vm

def step (specialize : Bool) (vm : Vm w S) : Event w.V S → Outcome w.V S × Vm w S
  | .exec lane site v =>
    match code site with
    | none => (.done, vm)
    | some op =>
      match lane with
      | .burst => syncBurst specialize vm site op v
      | .loop => runLoop specialize vm site op v
  | .seed profile => (.done, if specialize then seedChunk code vm profile else vm)

def run (specialize : Bool) (vm : Vm w S) : List (Event w.V S) → List (Outcome w.V S) × Vm w S
  | [] => ([], vm)
  | e :: es =>
    let (o, vm) := step code specialize vm e
    let (os, vm) := run specialize vm es
    (o :: os, vm)

end Runs

end AScript.Bytecode.Globals
