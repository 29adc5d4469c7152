import AScript.Worker.Serialize

namespace AScript.Worker

open AScript.Lib AScript.Runtime

variable {D A B : Type}

def container? : Val D A → Option A
  | .other (.cell a) => some a
  | .other (.variant _ _ _ payload _ _) => payload
  | _ => none

/-- The values met on the way from a root through containers. -/
inductive Occurs (h : Heap D A) (root : Val D A) : Val D A → Prop
  | root : Occurs h root root
  | inside : Occurs h root w → container? w = some a → v ∈ (h a).values → Occurs h root v

def Reached (h : Heap D A) (root : Val D A) (a : A) : Prop :=
  ∃ v, Occurs h root v ∧ container? v = some a

theorem Reached.values {h : Heap D A} (ha : Reached h root a) (hv : v ∈ (h a).values) :
    Occurs h root v :=
  let ⟨_, hw, hc⟩ := ha
  .inside hw hc hv

section Same

variable (R : A → B → Prop)

inductive Same : Val D A → Val D B → Prop
  | nil : Same .nil .nil
  | bool : Same (.bool b) (.bool b)
  | int : Same (.int i) (.int i)
  | float : Same (.float f) (.float f)
  | decimal : Same (.decimal d) (.decimal d)
  | str : Same (.str s) (.str s)
  | cell : R a b → Same (.other (.cell a)) (.other (.cell b))
  | regex : Same (.other (.regex source)) (.other (.regex source))
  | shared : Same (.other (.shared node)) (.other (.shared node))
  | unit : Same v w →
      Same (.other (.variant enumName name v none ctor hasDef))
        (.other (.variant enumName name w none ctor hasDef))
  | payload : Same v w → R a b →
      Same (.other (.variant enumName name v (some a) ctor hasDef))
        (.other (.variant enumName name w (some b) ctor hasDef))

def SameEntries (m : IndexMap K (Val D A)) (m' : IndexMap K (Val D B)) : Prop :=
  List.Forall₂ (fun e e' => e.1 = e'.1 ∧ Same R e.2 e'.2) m.entries m'.entries

inductive SameCell : Cell D A → Cell D B → Prop
  | array : List.Forall₂ (Same R) vs ws → SameCell (.array vs) (.array ws)
  | object : SameEntries R m m' → SameCell (.object m) (.object m')
  | map : SameEntries R m m' → SameCell (.map m) (.map m')
  | set : SameCell (.set m) (.set m)
  | bytes : SameCell (.bytes raw) (.bytes raw)
  | instance : cls.name = cls'.name → SameEntries R m m' →
      SameCell (.instance cls m) (.instance cls' m')

end Same

/-- Two graphs of values are the same: containers correspond one to one, whatever is shared
or cyclic in one is so in the other. -/
def Isomorphic (h : Heap D A) (v : Val D A) (h' : Heap D B) (v' : Val D B) : Prop :=
  ∃ R : A → B → Prop, (∀ a b b', R a b → R a b' → b = b') ∧ (∀ a a' b, R a b → R a' b → a = a') ∧
    (∀ a b, R a b → SameCell R (h a) (h' b)) ∧ Same R v v'

def IsScalar : Value D O → Prop
  | .other _ => False
  | _ => True

def ProperVal (x : Ext D) (h : Heap D A) : Val D A → Prop
  | .other (.variant _ _ value none _ _) => IsScalar value
  | .other (.variant _ _ value (some a) ctor hasDef) =>
    value = .nil ∧ ctor = false ∧ hasDef = false ∧ (payloadTag (h a)).isSome
  | .other (.regex source) => x.regexCompiles source = true
  | _ => True

def ProperCell : Cell D A → Prop
  | .map m => ∀ k ∈ m.keys, ∃ v : Val D A, MapKey.fromValue v = some k
  | .set m => ∀ k ∈ m.keys, ∃ v : Val D A, MapKey.fromValue v = some k
  | _ => True

structure Proper (x : Ext D) (h : Heap D A) (root : Val D A) : Prop where
  decimal : ∀ d, x.decimalFromStr (x.decimalToString d) = some d
  value : Occurs h root v → ProperVal x h v
  cell : Reached h root a → ProperCell (h a)

def Short (bs : List α) : Prop := bs.length < 2 ^ 32

def SmallScalar (x : Ext D) : Value D O → Prop
  | .decimal d => Short (utf8 (x.decimalToString d))
  | .str s => Short (utf8 s)
  | _ => True

def SmallVal (x : Ext D) : Val D A → Prop
  | .other (.variant enumName name value _ _ _) =>
    Short (utf8 enumName) ∧ Short (utf8 name) ∧ SmallScalar x value
  | .other (.regex source) => Short (utf8 source)
  | v => SmallScalar x v

def SmallCell (x : Ext D) : Cell D A → Prop
  | .array vs => Short vs
  | .object m => Short m.entries ∧ ∀ k ∈ m.keys, Short (utf8 k)
  | .map m => Short m.entries ∧ ∀ k ∈ m.keys, SmallScalar x (k.toValue : Val D A)
  | .set m => Short m.entries ∧ ∀ k ∈ m.keys, SmallScalar x (k.toValue : Val D A)
  | .bytes raw => Short raw
  | .instance cls m => Short (utf8 cls.name) ∧ Short m.entries ∧ ∀ k ∈ m.keys, Short (utf8 k)

def isShared : Val D A → Bool
  | .other (.shared _) => true
  | _ => false

/-- Every length, and the numbers of containers and of references to shared nodes, fit the
32 bits they are written in. -/
structure Small (x : Ext D) (h : Heap D A) (root : Val D A) : Prop where
  value : Occurs h root v → SmallVal x v
  cell : Reached h root a → SmallCell x (h a)
  containers : ∀ l : List A, l.Nodup → (∀ a ∈ l, Reached h root a) → l.length ≤ 2 ^ 32
  shared : ∀ l : List A, l.Nodup → (∀ a ∈ l, Reached h root a) →
    [root].countP isShared + (l.map fun a => (h a).values.countP isShared).sum ≤ 2 ^ 32

/-- A variant without a payload is kept: the receiver's own is the same, or there is none and
it is not an unapplied constructor. -/
def Kept (far : String → String → Option (Val D Nat)) : Val D A → Prop
  | .other (.variant enumName name value none ctor hasDef) =>
    match far enumName name with
    | none => ctor = false ∧ hasDef = false
    | some w => Same (fun _ _ => False) (.other (.variant enumName name value none ctor hasDef)) w
  | _ => True

end AScript.Worker
