import AScript.Bytecode.Frame

namespace AScript.Bytecode

open AScript.Lib

structure Closure where
  body : Body
  upvalues : Nat

inductive Entry
  | bare
  | bound
  | method
  deriving DecidableEq

def Entry.bind (params : Nat) : Entry → List Act
  | .bare => []
  | .bound => (List.range params).map .aware
  | .method => (List.range (params + 1)).map .aware

def Closure.enter (k : Closure) (m : Entry) : Except Fault Frame := do
  let cells ← Frame.allocCells k.body.chunk.slotCount.toNat k.body.chunk.cellSlots
  let f : Frame := ⟨0, k.body.chunk.slotCount.toNat, cells, k.upvalues, m = .method, 0⟩
  f.perform k.body (m.bind k.body.params.length)

structure Program where
  closures : List Closure
  activations : List (Body × Activation)

namespace Program

inductive Event
  | exec (i : Nat) (ch : Choice)
  | resume (i : Nat)
  | call (k : Nat) (m : Entry)

def made (b : Body) (ch : Choice) (f : Frame) : List Closure :=
  match (b.chunk.code[f.ip]?).bind Op.fromU8, f.raises ch .closure with
  | some .closure, none =>
    (b.chunk.protos[b.chunk.readU16 (f.ip + 1)]?).toList.map fun p =>
      ⟨p.body, p.chunk.upvalues.length⟩
  | _, _ => []

def machine : Machine Program Event (Option Fault) where
  step s
    | .exec i ch => do
      let (b, a) ← s.activations[i]?
      let (o, a') ← b.machine.step a (.exec ch)
      some (o, ⟨s.closures ++ (if o = none then made b ch a.frame else []),
        s.activations.set i (b, a')⟩)
    | .resume i => do
      let (b, a) ← s.activations[i]?
      let (o, a') ← b.machine.step a .resume
      some (o, ⟨s.closures, s.activations.set i (b, a')⟩)
    | .call k m => do
      let c ← s.closures[k]?
      match c.enter m with
      | .error x => some (some x, s)
      | .ok f => some (none, ⟨s.closures, s.activations ++ [(c.body, ⟨f, .running⟩)]⟩)

/-- A loaded chunk: a closure over nothing that is about to be called. -/
def start (c : Chunk) : Program := ⟨[⟨⟨c, []⟩, 0⟩], []⟩

end Program
end AScript.Bytecode
