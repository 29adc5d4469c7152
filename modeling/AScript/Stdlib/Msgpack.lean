import AScript.Lib.Rounding
import AScript.Worker.Graph

/-! Values as MessagePack, and MessagePack as values (`stdlib/msgpack.rs`). -/

namespace AScript.Stdlib

open AScript.Lib AScript.Runtime

/-- The nearest float to an integer from `2 ^ 63` to `2 ^ 64`. -/
def bigFloat (n : Nat) : F64 := ⟨BitVec.ofNat 64 (0x43E * 2 ^ 52 + (nearest n (2 ^ 11) - 2 ^ 52))⟩

/-- A container as it is stored, with the flag that `object.freeze` sets. -/
structure Slot (D : Type) where
  cell : Cell D Nat
  frozen : Bool

/-- No value refers to where nothing is stored. -/
def heapOf (slots : List (Slot D)) : Heap D Nat := fun a =>
  match slots[a]? with
  | some slot => slot.cell
  | none => .bytes []

inductive SharedNode (D : Type)
  | nil
  | bool (b : Bool)
  | int (i : I64)
  | float (f : F64)
  | decimal (d : D)
  | str (s : String)
  | bytes (raw : List UInt8)
  | array (items : List (SharedNode D))
  | object (entries : List (String × SharedNode D))
  | map (entries : List (MapKey D × SharedNode D))
  | set (elems : List (MapKey D))
  | variant
  | regex
  | instance (fields : List (String × SharedNode D))

/-- What other libraries print, the kinds of native handles, and the deeply frozen values. -/
structure Printing (D : Type) where
  decimalText : D → List Char
  nativeName : (channelOrEvents : Bool) → String
  node : Nat → SharedNode D

def codeName {D : Type} (x : Printing D) : Code → String
  | .function | .builtin | .closure | .boundMethod | .classMethod | .generatorMethod
  | .nativeMethod | .super => "function"
  | .native channelOrEvents => x.nativeName channelOrEvents
  | .future => "future"
  | .generator => "generator"
  | .class => "class"
  | .interface => "interface"
  | .enum => "enum"

theorem unseen_lt {D : Type} {slots : List (Slot D)} {slot : Slot D} {a : Nat} {seen : List Nat}
    (hseen : a ∉ seen) (hslot : slots[a]? = some slot) :
    ((List.range slots.length).filter (· ∉ a :: seen)).length <
      ((List.range slots.length).filter (· ∉ seen)).length := by
  have hmem : a ∈ (List.range slots.length).filter (· ∉ seen) := by
    obtain ⟨ha, -⟩ := List.getElem?_eq_some_iff.mp hslot
    simp [ha, hseen]
  have hsub : (List.range slots.length).filter (· ∉ a :: seen) =
      ((List.range slots.length).filter (· ∉ seen)).filter fun b => !decide (b = a) := by
    rw [List.filter_filter]
    exact List.filter_congr fun b _ => by simp
  rw [hsub]
  exact List.length_filter_lt_length_iff_exists.mpr ⟨a, hmem, by simp⟩

namespace Msgpack

@[ext]
structure Integer where
  val : Int
  lower : -2 ^ 63 ≤ val
  upper : val < 2 ^ 64

instance : DecidableEq Integer := fun i j =>
  decidable_of_iff (i.val = j.val) ⟨Integer.ext, congrArg Integer.val⟩

namespace Integer

def ofI64 (i : I64) : Integer := ⟨i.val, i.lower, i.upper.trans (by decide)⟩

def ofU64 (n : Int) : Integer :=
  ⟨max 0 (min n (2 ^ 64 - 1)), by omega, by omega⟩

def asI64 (i : Integer) : Option I64 :=
  if h : i.val < 2 ^ 63 then some ⟨i.val, i.lower, h⟩ else none

def asU64 (i : Integer) : Option Nat := if 0 ≤ i.val then some i.val.toNat else none

end Integer

/-- A value of MessagePack. A string need not be UTF-8, and a float of 32 bits is the one of 64 bits
that it is the same number as. -/
inductive Mp
  | nil
  | boolean (b : Bool)
  | integer (i : Integer)
  | f32 (f : F64)
  | f64 (f : F64)
  | string (s : String)
  | raw (bytes : List UInt8)
  | binary (bytes : List UInt8)
  | array (items : List Mp)
  | map (pairs : List (Mp × Mp))
  | ext (tag : Int) (bytes : List UInt8)

/-- A value as the tree it unfolds to. Sharing is gone, a container inside itself is a `loop`, and
of what is not data the name of its type is left. -/
inductive Tree (D : Type)
  | nil
  | bool (b : Bool)
  | int (i : I64)
  | float (f : F64)
  | decimal (d : D)
  | str (s : String)
  | bytes (raw : List UInt8)
  | array (items : List (Tree D))
  | set (elems : List (MapKey D))
  | object (entries : List (String × Tree D))
  | map (entries : List (MapKey D × Tree D))
  | handle (typeName : String)
  | loop

/-- `2 ^ 64`. -/
def u64Sup : F64 := ⟨0x43f0000000000000#64⟩

/-- The units of a float as a whole number, for the cast `as u64`. -/
def wholeOf (f : F64) : Int :=
  match f.decode with
  | .fin n => n.tdiv Datum.one
  | .inf s => if s then 0 else 2 ^ 64
  | .nan => 0

def isWhole (f : F64) : Bool := f.decode.fract.beq F64.zero.decode && f.isFinite

def numberToMp (f : F64) : Mp :=
  if isWhole f then
    if F64.zero.le f && f.lt u64Sup then .integer (.ofU64 (wholeOf f))
    else if F64.i64Min.le f && f.lt F64.i64Sup then .integer (.ofI64 f.toI64)
    else .f64 f
  else .f64 f

def ofInteger (i : Integer) : Tree D :=
  match i.asI64 with
  | some s => .int s
  | none =>
    match i.asU64 with
    | some u => .float (bigFloat u)
    | none => .float F64.canonicalNan

section ToMp

variable {D : Type} (x : Printing D)

def decimalString (d : D) : String := String.ofList (x.decimalText d)

def cyclic : String := "cannot serialize a cyclic structure to MessagePack"

def unrepresentable (typeName : String) : String :=
  "cannot serialize a value of type " ++ typeName ++ " to MessagePack"

def keyToMp : MapKey D → Mp
  | .nil => .nil
  | .bool b => .boolean b
  | .int i => .integer (.ofI64 i)
  | .num bits => numberToMp ⟨bits⟩
  | .str s => .string s
  | .decimal d => .string (decimalString x d)

mutual

/-- `to_mp` of a tree. -/
def encode : Tree D → Except String Mp
  | .nil => .ok .nil
  | .bool b => .ok (.boolean b)
  | .int i => .ok (.integer (.ofI64 i))
  | .float f => .ok (numberToMp f)
  | .decimal d => .ok (.string (decimalString x d))
  | .str s => .ok (.string s)
  | .bytes raw => .ok (.binary raw)
  | .array items => (encodeItems items).map .array
  | .set elems => .ok (.array (elems.map (keyToMp x)))
  | .object entries => (encodeEntries entries).map .map
  | .map entries => (encodePairs entries).map .map
  | .handle typeName => .error (unrepresentable typeName)
  | .loop => .error cyclic

def encodeItems : List (Tree D) → Except String (List Mp)
  | [] => .ok []
  | t :: items => do
    let mp ← encode t
    let mps ← encodeItems items
    .ok (mp :: mps)

def encodeEntries : List (String × Tree D) → Except String (List (Mp × Mp))
  | [] => .ok []
  | (key, t) :: entries => do
    let mp ← encode t
    let mps ← encodeEntries entries
    .ok ((.string key, mp) :: mps)

def encodePairs : List (MapKey D × Tree D) → Except String (List (Mp × Mp))
  | [] => .ok []
  | (key, t) :: entries => do
    let mp ← encode t
    let mps ← encodePairs entries
    .ok ((keyToMp x key, mp) :: mps)

end

variable [DecidableEq D]

mutual

/-- What `shared_to_value_shallow` makes of a deeply frozen value, all the way down. -/
def frozenTree : SharedNode D → Tree D
  | .nil => .nil
  | .bool b => .bool b
  | .int i => .int i
  | .float f => .float f
  | .decimal d => .decimal d
  | .str s => .str s
  | .bytes raw => .bytes raw
  | .array items => .array (frozenItems items)
  | .object entries => .object (IndexMap.ofPairs (frozenEntries entries)).entries
  | .map entries => .map (IndexMap.ofPairs (frozenPairs entries)).entries
  | .set elems => .set (IndexMap.ofPairs (elems.map (·, ()))).keys
  | .variant => .handle "enum variant"
  | .regex => .handle "regex"
  | .instance _ => .handle "instance"

def frozenItems : List (SharedNode D) → List (Tree D)
  | [] => []
  | node :: items => frozenTree node :: frozenItems items

def frozenEntries : List (String × SharedNode D) → List (String × Tree D)
  | [] => []
  | (key, node) :: entries => (key, frozenTree node) :: frozenEntries entries

def frozenPairs : List (MapKey D × SharedNode D) → List (MapKey D × Tree D)
  | [] => []
  | (key, node) :: entries => (key, frozenTree node) :: frozenPairs entries

end

variable (slots : List (Slot D))

/-- The containers still being written are in `seen`. Those made of a deeply frozen value are new,
and so never among them. -/
def toMp (seen : List Nat) : Val D Nat → Except String Mp
  | .nil => .ok .nil
  | .bool b => .ok (.boolean b)
  | .int i => .ok (.integer (.ofI64 i))
  | .float f => .ok (numberToMp f)
  | .decimal d => .ok (.string (decimalString x d))
  | .str s => .ok (.string s)
  | .other (.cell a) =>
    match _ : slots[a]? with
    | none => .ok (.binary [])
    | some slot =>
      match slot.cell with
      | .bytes raw => .ok (.binary raw)
      | .array vs =>
        if _ : a ∈ seen then .error cyclic
        else (vs.mapM (toMp (a :: seen))).map .array
      | .set m =>
        if _ : a ∈ seen then .error cyclic
        else .ok (.array (m.keys.map (keyToMp x)))
      | .object m =>
        if _ : a ∈ seen then .error cyclic
        else (m.entries.mapM fun e => (toMp (a :: seen) e.2).map (Mp.string e.1, ·)).map .map
      | .map m =>
        if _ : a ∈ seen then .error cyclic
        else (m.entries.mapM fun e => (toMp (a :: seen) e.2).map (keyToMp x e.1, ·)).map .map
      | .instance .. => .error (unrepresentable "instance")
  | .other (.code c) => .error (unrepresentable (codeName x c))
  | .other (.regex _) => .error (unrepresentable "regex")
  | .other (.shared node) => encode x (frozenTree (x.node node))
  | .other (.variant ..) => .error (unrepresentable "enum variant")
termination_by ((List.range slots.length).filter (· ∉ seen)).length
decreasing_by all_goals exact unseen_lt ‹_› ‹_›

/-- The tree a value unfolds to. -/
def unfold (seen : List Nat) : Val D Nat → Tree D
  | .nil => .nil
  | .bool b => .bool b
  | .int i => .int i
  | .float f => .float f
  | .decimal d => .decimal d
  | .str s => .str s
  | .other (.cell a) =>
    match _ : slots[a]? with
    | none => .bytes []
    | some slot =>
      match slot.cell with
      | .bytes raw => .bytes raw
      | .instance .. => .handle "instance"
      | .set m => if a ∈ seen then .loop else .set m.keys
      | .array vs => if _ : a ∈ seen then .loop else .array (vs.map (unfold (a :: seen)))
      | .object m =>
        if _ : a ∈ seen then .loop
        else .object (m.entries.map fun e => (e.1, unfold (a :: seen) e.2))
      | .map m =>
        if _ : a ∈ seen then .loop
        else .map (m.entries.map fun e => (e.1, unfold (a :: seen) e.2))
  | .other (.code c) => .handle (codeName x c)
  | .other (.regex _) => .handle "regex"
  | .other (.shared node) => frozenTree (x.node node)
  | .other (.variant ..) => .handle "enum variant"
termination_by ((List.range slots.length).filter (· ∉ seen)).length
decreasing_by all_goals exact unseen_lt ‹_› ‹_›

end ToMp

section FromMp

variable {D : Type} [DecidableEq D]

def Tree.toKey : Tree D → Option (MapKey D)
  | .nil => some .nil
  | .bool b => some (.bool b)
  | .int i => some (.int i)
  | .float f => some (.ofFloat f)
  | .str s => some (.str s)
  | .decimal d => some (.decimal d)
  | _ => none

def Mp.isString : Mp → Bool
  | .string _ => true
  | _ => false

mutual

/-- Containers are all new, so what is made is a tree. -/
def fromMp : Mp → Tree D
  | .nil => .nil
  | .boolean b => .bool b
  | .integer i => ofInteger i
  | .f32 f | .f64 f => .float f
  | .string s => .str s
  | .raw bytes | .binary bytes => .bytes bytes
  | .array items => .array (fromItems items)
  | .map pairs =>
    if pairs.all (·.1.isString) then .object (IndexMap.ofPairs (fromEntries pairs)).entries
    else .map (IndexMap.ofPairs (fromPairs pairs)).entries
  | .ext _ bytes => .bytes bytes

def fromItems : List Mp → List (Tree D)
  | [] => []
  | mp :: items => fromMp mp :: fromItems items

def fromEntries : List (Mp × Mp) → List (String × Tree D)
  | [] => []
  | (.string s, mp) :: pairs => (s, fromMp mp) :: fromEntries pairs
  | _ :: pairs => fromEntries pairs

def fromPairs : List (Mp × Mp) → List (MapKey D × Tree D)
  | [] => []
  | (key, mp) :: pairs =>
    match (fromMp key).toKey with
    | some k => (k, fromMp mp) :: fromPairs pairs
    | none => fromPairs pairs

end

end FromMp

end Msgpack
end AScript.Stdlib
