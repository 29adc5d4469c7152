import AScript.Runtime.Number

/-! Values over a heap of cells (`value.rs`). Addresses are a parameter, and what kind of
container an address is for is read off its cell. -/

namespace AScript.Runtime

open AScript.Lib

inductive Code
  | function
  | builtin
  | closure
  | boundMethod
  | classMethod
  | generatorMethod
  | nativeMethod
  | native : (channelOrEvents : Bool) → Code
  | future
  | generator
  | «class»
  | interface
  | enum
  | super

/-- What is not a hashable scalar. An enum variant names its enum and itself, and has its
backing value, the cell of its payload, whether it is an unapplied constructor and whether
it knows its enum's definition. -/
inductive Handle (D A : Type)
  | cell : A → Handle D A
  | code : Code → Handle D A
  | regex : (source : String) → Handle D A
  | shared : (node : Nat) → Handle D A
  | variant : (enumName name : String) → (value : Value D (Handle D A)) → (payload : Option A) →
      (ctor hasDef : Bool) → Handle D A

abbrev Val (D A : Type) := Value D (Handle D A)

structure ClassRef where
  name : String
  superclasses : List String
  deriving DecidableEq

inductive Cell (D A : Type)
  | array : (items : List (Val D A)) → Cell D A
  | object : (entries : IndexMap String (Val D A)) → Cell D A
  | map : (entries : IndexMap (MapKey D) (Val D A)) → Cell D A
  | set : (elems : IndexMap (MapKey D) Unit) → Cell D A
  | bytes : (raw : List UInt8) → Cell D A
  | instance : (cls : ClassRef) → (fields : IndexMap String (Val D A)) → Cell D A

abbrev Heap (D A : Type) := A → Cell D A

inductive CellKind
  | array
  | object
  | map
  | set
  | bytes
  | instance : CellKind
  deriving DecidableEq

def Cell.kind : Cell D A → CellKind
  | .array _ => .array
  | .object _ => .object
  | .map _ => .map
  | .set _ => .set
  | .bytes _ => .bytes
  | .instance _ _ => .instance

def Cell.values : Cell D A → List (Val D A)
  | .array items => items
  | .object m | .instance _ m => m.values
  | .map m => m.values
  | .set _ | .bytes _ => []

/-- Mutation in place changes what a cell holds, not what kind of cell it is. -/
def Heap.SameKinds (h h' : Heap D A) : Prop := ∀ a, (h a).kind = (h' a).kind

def Heap.cell? (h : Heap D A) : Val D A → Option (Cell D A)
  | .other (.cell a) => some (h a)
  | _ => none

def Heap.cellKind? (h : Heap D A) (v : Val D A) : Option CellKind := (h.cell? v).map Cell.kind

theorem Heap.SameKinds.cellKind? {h h' : Heap D A} (hk : h.SameKinds h') (v : Val D A) :
    h.cellKind? v = h'.cellKind? v := by
  unfold Heap.cellKind? Heap.cell?
  split
  next a => exact congrArg some (hk a)
  next => rfl

end AScript.Runtime
