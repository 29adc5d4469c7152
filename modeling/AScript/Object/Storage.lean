import AScript.Object.Shape

universe u v

namespace AScript.Object

open AScript.Lib

variable {K : Type u} {V : Type v} [DecidableEq K]

/-- `value.rs` `ObjectStorage`: a shaped slab or a plain dictionary. -/
inductive ObjectStorage (K : Type u) (V : Type v)
  | slab : List K → List V → ObjectStorage K V
  | dict : IndexMap K V → ObjectStorage K V

namespace ObjectStorage

def len : ObjectStorage K V → Nat
  | .slab _ vs => vs.length
  | .dict m => m.len

def isSlab : ObjectStorage K V → Bool
  | .slab _ _ => true
  | .dict _ => false

def getIndexOf (s : ObjectStorage K V) (key : K) : Option Nat :=
  match s with
  | .slab ks _ => ks.findIdx? (· == key)
  | .dict m => m.getIndexOf key

def get (s : ObjectStorage K V) (key : K) : Option V :=
  match s with
  | .slab ks vs => (ks.findIdx? (· == key)).bind (vs[·]?)
  | .dict m => m.get key

def containsKey (s : ObjectStorage K V) (key : K) : Bool :=
  match s with
  | .slab ks _ => ks.any (· == key)
  | .dict m => m.containsKey key

def getIndex (s : ObjectStorage K V) (i : Nat) : Option (K × V) :=
  match s with
  | .slab ks vs =>
    if i < vs.length then (ks[i]?).bind fun k => (vs[i]?).map fun v => (k, v) else none
  | .dict m => m.getIndex i

def valueAt (s : ObjectStorage K V) (i : Nat) : Option V :=
  match s with
  | .slab _ vs => vs[i]?
  | .dict m => (m.getIndex i).map Prod.snd

def setValueAt (s : ObjectStorage K V) (i : Nat) (v : V) : Bool × ObjectStorage K V :=
  match s with
  | .slab ks vs => if i < vs.length then (true, .slab ks (vs.set i v)) else (false, .slab ks vs)
  | .dict m => if i < m.len then (true, .dict (m.setAt i v)) else (false, .dict m)

def demoteToDict : ObjectStorage K V → ObjectStorage K V
  | .slab ks vs => .dict (.ofPairs (ks.zip vs))
  | .dict m => .dict m

def dictInsert (s : ObjectStorage K V) (key : K) (v : V) : ObjectStorage K V :=
  match s with
  | .slab ks vs => .slab ks vs
  | .dict m => .dict (m.insert key v)

def insert (s : ObjectStorage K V) (key : K) (v : V) : ObjectStorage K V :=
  match s.getIndexOf key with
  | some i => (s.setValueAt i v).2
  | none => (if s.isSlab then s.demoteToDict else s).dictInsert key v

def shiftRemove (s : ObjectStorage K V) (key : K) : Option V × ObjectStorage K V :=
  match (if s.isSlab then s.demoteToDict else s) with
  | .dict m => ((m.shiftRemove key).1, .dict (m.shiftRemove key).2)
  | .slab ks vs => (none, .slab ks vs)

def entries : ObjectStorage K V → List (K × V)
  | .slab ks vs => ks.zip vs
  | .dict m => m.entries

def keysSnapshot : ObjectStorage K V → List K
  | .slab ks _ => ks
  | .dict m => m.keys

end ObjectStorage

/-- `value.rs` `ObjectCell`; `Instance` has the same storage, shape and flag. -/
structure ObjectCell (K : Type u) (V : Type v) where
  storage : ObjectStorage K V
  shape : Nat
  frozen : Bool

namespace ObjectCell

def new (m : IndexMap K V) : ObjectCell K V := ⟨.dict m, 0, false⟩

def newSlab (ks : List K) (vs : List V) (shape : Nat) : ObjectCell K V :=
  ⟨.slab ks vs, shape, false⟩

def freeze (c : ObjectCell K V) : ObjectCell K V := { c with frozen := true }

def demoteToDict (c : ObjectCell K V) : ObjectCell K V :=
  { c with storage := c.storage.demoteToDict, shape := 0 }

def slabAppend (c : ObjectCell K V) (childShape : Nat) (childKeys : List K) (v : V) :
    Bool × ObjectCell K V :=
  match c.storage with
  | .slab _ vs => (true, { c with storage := .slab childKeys (vs ++ [v]), shape := childShape })
  | .dict _ => (false, c)

def setValueAt (c : ObjectCell K V) (i : Nat) (v : V) : Bool × ObjectCell K V :=
  ((c.storage.setValueAt i v).1, { c with storage := (c.storage.setValueAt i v).2 })

def insert (c : ObjectCell K V) (key : K) (v : V) : ObjectCell K V :=
  { c with
    storage := c.storage.insert key v
    shape := if c.storage.isSlab && !c.storage.containsKey key then 0 else c.shape }

def shiftRemove (c : ObjectCell K V) (key : K) : Option V × ObjectCell K V :=
  ((c.storage.shiftRemove key).1,
    { c with
      storage := (c.storage.shiftRemove key).2
      shape := if c.storage.isSlab then 0 else c.shape })

def contentEq [BEq V] (a b : ObjectCell K V) : Bool :=
  a.storage.len == b.storage.len &&
    a.storage.entries.all fun e => (b.storage.get e.1).any (· == e.2)

end ObjectCell

/-- `Vm::vm_object_insert`, and `Vm::vm_instance_insert` on an instance's fields. -/
def vmObjectInsert (reg : ShapeRegistry K) (c : ObjectCell K V) (name : K) (value : V) :
    Option (ShapeRegistry K × ObjectCell K V) :=
  match c.storage.getIndexOf name with
  | some i => some (reg, (c.setValueAt i value).2)
  | none =>
    if c.storage.isSlab then
      match reg.addKey c.shape name with
      | none => none
      | some (some child, reg') =>
        match reg'.keysOf child with
        | none => none
        | some childKeys =>
          match c.slabAppend child childKeys value with
          | (true, c') => some (reg', c')
          | (false, c') => some (reg', c'.insert name value)
      | some (none, reg') => some (reg', c.demoteToDict.insert name value)
    else some (reg, c.insert name value)

def literalOrder : List (K × V) → List K × IndexMap K V → List K × IndexMap K V
  | [], acc => acc
  | (k, v) :: ps, (order, vals) =>
    literalOrder ps (if vals.containsKey k then order else order ++ [k], vals.insert k v)

def takeValues : List K → IndexMap K V → Option (List V)
  | [], _ => some []
  | k :: ks, vals =>
    match vals.shiftRemove k with
    | (none, _) => none
    | (some v, vals') => (takeValues ks vals').map (v :: ·)

/-- `Vm::new_object_generic` on the popped pairs, in source order. -/
def newObjectGeneric (reg : ShapeRegistry K) (pairs : List (K × V)) :
    Option (ShapeRegistry K × ObjectCell K V) :=
  match literalOrder pairs ([], .empty) with
  | (order, vals) =>
    match reg.shapeFor order with
    | none => none
    | some (some shape, reg') =>
      match reg'.keysOf shape, takeValues order vals with
      | some ks, some vs => some (reg', .newSlab ks vs shape)
      | _, _ => none
    | some (none, reg') =>
      (takeValues order vals).map fun vs => (reg', .new (.ofPairs (order.zip vs)))

end AScript.Object
