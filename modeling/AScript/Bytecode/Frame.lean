import AScript.Bytecode.Verify
import AScript.Lib.Machine

/-! Activation frames (`vm/fiber.rs`) under the run loop (`vm/run.rs`). Values, branch
outcomes and call results are arbitrary here, so a frame keeps how many values it has and
an instruction is the accesses its arm makes, in order. -/

namespace AScript.Bytecode

open AScript.Lib

inductive Table
  | const
  | typeConst
  | param
  | proto
  | classProto
  | interfaceProto
  | «import»
  deriving DecidableEq

def Body.tableLen (b : Body) : Table → Nat
  | .const => b.chunk.consts.length
  | .typeConst => b.chunk.typeConsts.length
  | .param => b.params.length
  | .proto => b.chunk.protos.length
  | .classProto => b.chunk.classProtos.length
  | .interfaceProto => b.chunk.interfaceProtos.length
  | .«import» => b.chunk.imports.length

inductive Act
  | pop
  | peek (back : Nat)
  | push
  | index (t : Table) (i : Nat)
  | «local» (slot : Nat)
  | cell (slot : Nat)
  | upvalue (i : Nat)
  | aware (slot : Nat)

inductive Fault
  | belowBase
  | table (t : Table)
  | slot
  | cell
  | upvalue
  | code
  deriving DecidableEq

/-- A frame: its locals, which of them have a heap cell, the upvalues of its closure, whether
it runs a method, and the depth of the operand area above the locals. -/
structure Frame where
  ip : Nat
  slots : Nat
  cells : List Bool
  upvalues : Nat
  isMethod : Bool
  depth : Nat

namespace Frame

def hasCell (f : Frame) (slot : Nat) : Bool := f.cells[slot]?.getD false

def require (f : Frame) (p : Bool) (x : Fault) : Except Fault Frame :=
  if p then .ok f else .error x

/-- To pop or peek below the operand base is a fault here. `Fiber::pop` goes on into the locals of
the frame, so results about what comes later ask that no step does it. -/
def act (b : Body) (f : Frame) : Act → Except Fault Frame
  | .pop => if f.depth = 0 then .error .belowBase else .ok { f with depth := f.depth - 1 }
  | .peek back => f.require (back < f.depth) .belowBase
  | .push => .ok { f with depth := f.depth + 1 }
  | .index t i => f.require (i < b.tableLen t) (.table t)
  | .«local» s => f.require (s < f.slots) .slot
  | .cell s => f.require (f.hasCell s) .cell
  | .upvalue i => f.require (i < f.upvalues) .upvalue
  | .aware s => f.require (f.hasCell s || s < f.slots) .slot

def perform (b : Body) : List Act → Frame → Except Fault Frame
  | [], f => .ok f
  | a :: as, f => do perform b as (← f.act b a)

/-- `alloc_cells`: an empty list of cell slots allocates nothing; a cell slot outside the
window is an index out of range. -/
def allocCells (slotCount : Nat) (cellSlots : List UInt32) : Except Fault (List Bool) :=
  if cellSlots.isEmpty then .ok []
  else if cellSlots.all (·.toNat < slotCount) then
    .ok ((List.range slotCount).map fun s => cellSlots.any (·.toNat = s))
  else .error .cell

end Frame

def pops (n : Nat) : List Act := List.replicate n .pop

def pushes (n : Nat) : List Act := List.replicate n .push

def capture : UpvalueDescriptor → Act
  | .parentLocal slot false => .cell slot.toNat
  | .parentLocal slot true => .«local» slot.toNat
  | .parentUpvalue i => .upvalue i.toNat

def bindImport (n : ImportName) : List Act :=
  if n.isGlobal then [] else if n.isCell then [.cell n.slot.toNat] else [.«local» n.slot.toNat]

def bindImports : ImportDesc → List Act
  | .named _ names => names.flatMap bindImport
  | .namespace _ n => bindImport n

def buildClass (p : ClassProto) : List Act :=
  pops p.staticMethodNames.length ++ pops p.methodNames.length ++ pops p.defaultFields.length ++
    pops p.hasSuper.toNat ++ [.push]

namespace Body

/-- The accesses of the arm of an instruction. A call is one step that leaves its result;
`k` is the length of the array a spread call finds. -/
def arm (b : Body) (operandAt k : Nat) : Op → List Act
  | .const => [.index .const (b.chunk.readU16 operandAt), .push]
  | .nil | .true | .false => [.push]
  | .pop => [.pop]
  | .dup => [.peek 0, .push]
  | .swap => pops 2 ++ pushes 2
  | .rot3 => pops 3 ++ pushes 3
  | .add | .sub | .mul | .div | .mod | .pow | .lt | .le | .gt | .ge | .eq | .ne | .instanceOf
  | .bitAnd | .bitOr | .bitXor | .shl | .shr | .wrapAdd | .wrapSub | .wrapMul | .range
  | .rangeInclusive => pops 2 ++ [.push]
  | .instanceOfType => [.index .const (b.chunk.readU16 operandAt), .pop, .push]
  | .rangeStepValue | .rangeHasNext => pops 3 ++ [.push]
  | .rangeResolveStep => [.pop, .peek 0, .peek 1, .push]
  | .neg | .not | .bitNot => [.pop, .push]
  | .getLocal => [.«local» (b.chunk.readU16 operandAt), .push]
  | .setLocal => [.pop, .«local» (b.chunk.readU16 operandAt)]
  | .getGlobal => [.index .const (b.chunk.readU16 operandAt), .push]
  | .defineGlobal => [.index .const (b.chunk.readU16 operandAt), .pop]
  | .setGlobal => [.index .const (b.chunk.readU16 operandAt), .peek 0]
  | .immutableError => [.index .const (b.chunk.readU16 operandAt)]
  | .call | .callElided =>
    .peek (b.chunk.readU8 operandAt) :: pops (b.chunk.readU8 operandAt + 1) ++ [.push]
  | .callSpread => .pop :: pushes k ++ .peek k :: pops (k + 1) ++ [.push]
  | .callNamed | .callMethod =>
    .index .const (b.chunk.readU16 operandAt) :: pops (b.chunk.readU8 (operandAt + 2) + 1) ++
      [.push]
  | .appendNamedArg => [.index .const (b.chunk.readU16 operandAt), .pop, .peek 1, .peek 0]
  | .appendPosArg | .appendSpreadArg => [.pop, .peek 1, .peek 0]
  | .callNamedSpread => pops 3 ++ [.push]
  | .callMethodSpread => .index .const (b.chunk.readU16 operandAt) :: pops 2 ++ [.push]
  | .template | .newArray => pops (b.chunk.readU16 operandAt) ++ [.push]
  | .jump | .loop | .jumpIfArgSupplied => []
  | .jumpIfFalse | .jumpIfTrue | .jumpIfNotNil => [.pop]
  | .checkParam =>
    .index .param (b.chunk.readU16 operandAt) ::
      if (b.params[b.chunk.readU16 operandAt]?).any (·.ty.isSome) then [.peek 0] else []
  | .checkLocal => [.index .typeConst (b.chunk.readU16 operandAt), .peek 0]
  | .newObject => pops (2 * b.chunk.readU16 operandAt) ++ [.push]
  | .newMap => [.push]
  | .mapEntry | .appendObject => [.pop, .pop, .peek 0]
  | .spread | .spreadArgs | .appendArray | .spreadObject => [.pop, .peek 0]
  | .getIndex => pops 2 ++ [.push]
  | .setIndex => pops 3 ++ [.push]
  | .getProp | .getPropOpt => [.index .const (b.chunk.readU16 operandAt), .pop, .push]
  | .setProp => .index .const (b.chunk.readU16 operandAt) :: pops 2 ++ [.push]
  | .checkNumbers => [.peek 0, .peek 1]
  | .iterSnapshot | .arrayLen => [.pop, .push]
  | .closure =>
    .index .proto (b.chunk.readU16 operandAt) ::
      ((b.chunk.protos[b.chunk.readU16 operandAt]?).toList.flatMap fun p =>
        p.chunk.upvalues.map capture) ++ [.push]
  | .getLocalCell => [.cell (b.chunk.readU16 operandAt), .push]
  | .setLocalCell => [.pop, .cell (b.chunk.readU16 operandAt)]
  | .freshCell => [.cell (b.chunk.readU16 operandAt)]
  | .«import» =>
    .index .«import» (b.chunk.readU16 operandAt) ::
      (b.chunk.imports[b.chunk.readU16 operandAt]?).toList.flatMap bindImports
  | .defineExport => [.index .const (b.chunk.readU16 operandAt), .pop]
  | .checkArrayDestructure | .checkObjectDestructure | .getIter => [.peek 0]
  | .arrayElem | .arrayRest | .matchArray | .matchObject | .matchVariantArity | .variantElem =>
    [.pop, .push]
  | .objectKey | .objectRest | .matchHasKey | .matchVariant | .matchVariantHasField
  | .variantField => [.index .const (b.chunk.readU16 operandAt), .pop, .push]
  | .matchRange => pops 4 ++ [.push]
  | .getUpvalue => [.upvalue (b.chunk.readU16 operandAt), .push]
  | .setUpvalue => [.pop, .upvalue (b.chunk.readU16 operandAt)]
  | .deferPush => pops (b.chunk.deferPops operandAt)
  | .deferPushMethod =>
    .index .const (b.chunk.readU16 operandAt) :: pops (b.chunk.deferPops (operandAt + 2))
  | .«return» | .yield | .iterClose => [.pop]
  | .propagate | .unwrap | .await => [.pop, .push]
  | .iterNext => [.pop, .push, .push]
  | .«class» =>
    .index .classProto (b.chunk.readU16 operandAt) ::
      (b.chunk.classProtos[b.chunk.readU16 operandAt]?).toList.flatMap buildClass
  | .defineInterface => [.index .interfaceProto (b.chunk.readU16 operandAt), .push]
  | .getSuper => [.index .const (b.chunk.readU16 operandAt), .aware 0, .push]
  | .matchNoArm | .method | .closeUpvalue | .makeGenerator | .«break» => []

end Body

/-- What is left open about one instruction: a conditional jump's outcome, the length of a
spread array, and after how many accesses it raises, if it does. An early return of a
propagated error is counted as raising. -/
structure Choice where
  taken : Bool
  spread : Nat
  raise : Option Nat
  deriving DecidableEq

inductive Status
  | running
  | suspended
  | ended
  deriving DecidableEq

def Body.transfer (b : Body) (operandAt : Nat) (ch : Choice) (op : Op) (next : Nat) :
    Nat × Status :=
  match op with
  | .jump | .loop => (b.chunk.jumpTarget operandAt, .running)
  | .jumpIfFalse | .jumpIfTrue | .jumpIfNotNil =>
    (if ch.taken then b.chunk.jumpTarget operandAt else next, .running)
  | .jumpIfArgSupplied =>
    (if ch.taken then b.chunk.jumpTarget (operandAt + 2) else next, .running)
  | .yield => (next, .suspended)
  | .«return» | .matchNoArm | .immutableError | .method | .closeUpvalue | .makeGenerator =>
    (next, .ended)
  | _ => (next, .running)

structure Activation where
  frame : Frame
  status : Status

/-- After how many accesses an instruction raises; outside a method, `super` raises once its
name is read. -/
def Frame.raises (f : Frame) (ch : Choice) (op : Op) : Option Nat :=
  if op = .getSuper && !f.isMethod then some 1 else ch.raise

def Body.performed (b : Body) (ch : Choice) (f : Frame) (op : Op) : List Act :=
  match f.raises ch op with
  | some n => (b.arm (f.ip + 1) ch.spread op).take n
  | none => b.arm (f.ip + 1) ch.spread op

def Body.exec (b : Body) (ch : Choice) (f : Frame) : Except Fault Activation :=
  match (b.chunk.code[f.ip]?).bind Op.fromU8 with
  | none => .error .code
  | some op =>
    let operandAt := f.ip + 1
    let acts := b.arm operandAt ch.spread op
    match f.raises ch op with
    | some n => do return ⟨← f.perform b (acts.take n), .ended⟩
    | none => do
      let f' ← f.perform b acts
      let (ip, status) := b.transfer operandAt ch op (operandAt + op.operandWidth)
      return ⟨{ f' with ip := ip }, status⟩

inductive Event
  | exec (ch : Choice)
  | resume
  deriving DecidableEq

/-- One activation: a running frame executes, a suspended one is resumed with a value on its
operand area. A fault is observed and ends it. -/
def Body.machine (b : Body) : Machine Activation Event (Option Fault) where
  step a
    | .exec ch =>
      if a.status = .running then
        match b.exec ch a.frame with
        | .error x => some (some x, { a with status := .ended })
        | .ok a' => some (none, a')
      else none
    | .resume =>
      if a.status = .suspended then
        some (none, ⟨{ a.frame with depth := a.frame.depth + 1 }, .running⟩)
      else none

end AScript.Bytecode
