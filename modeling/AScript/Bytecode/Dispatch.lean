import AScript.Lib.Coarse
import AScript.Bytecode.Decode

/-! Byte dispatch and record dispatch of the synchronous burst (`vm/run.rs`). What the arms
other than those of fused instructions compute, how members are read and how values add is
left open; an arm can only step, call, return, leave the burst or fail. -/

namespace AScript.Bytecode

open AScript.Lib

structure CallFrame (F : Type) where
  fn : Nat
  ip : Nat
  slotBase : Nat
  rest : F

/-- The frame stack over one value stack, bottom first; locals and operands share it. -/
structure Fiber (V W F : Type) where
  top : CallFrame F
  below : List (CallFrame F)
  stack : List V
  world : W

inductive Final (V W F E X : Type)
  | exit (x : X) (fiber : Fiber V W F)
  | raise (e : E) (world : W)
  | panic

/-- Inside a burst or at its end. -/
abbrev Conf (V W F E X : Type) := Outcome (Fiber V W F) (Final V W F E X)

inductive ArmResult (V W F E X : Type)
  | step (taken : Bool) (stack : List V) (world : W) (rest : F)
  | call (fn slotBase : Nat) (callee : F) (stack : List V) (world : W) (rest : F)
  | «return» (stack : List V) (world : W) (x : X)
  | escalate (x : X) (stack : List V) (world : W) (rest : F)
  | finish (x : X) (stack : List V) (world : W) (rest : F)
  | raise (e : E) (world : W)
  | panic

/-- The program and what a run depends on besides it. Reading a member and adding know the
offset they are attributed to. -/
structure Vm (V W F E X : Type) where
  program : Nat → Chunk
  const : Const → V
  readMember : (fn off : Nat) → String → V → W → Except E V × W
  notString : (fn off : Nat) → Const → E
  add : (fn off : Nat) → V → V → W → Except E V × W
  arm : Op → (off : Nat) → Fiber V W F → ArmResult V W F E X
  needsAsync : X

def syncLaneOp : Op → Bool
  | .closeUpvalue | .callMethod | .callMethodSpread | .«class» | .defineInterface | .method
  | .makeGenerator | .«import» | .getIter | .iterNext | .iterClose | .defineExport | .callNamed
  | .callNamedSpread | .«break» => false
  | _ => true

variable {V W F E X : Type}

namespace Fiber

def framesLen (fb : Fiber V W F) : Nat := fb.below.length + 1

def get (fb : Fiber V W F) (slot : Nat) : Option V := fb.stack[fb.top.slotBase + slot]?

def pop (stack : List V) : Option (V × List V) := stack.getLast?.map fun v => (v, stack.dropLast)

def goto (fb : Fiber V W F) (ip : Nat) (stack : List V) (world : W) : Fiber V W F :=
  { fb with top := { fb.top with ip := ip }, stack := stack, world := world }

end Fiber

namespace Vm

variable (vm : Vm V W F E X)

def chunk (fb : Fiber V W F) : Chunk := vm.program fb.top.fn

def settle (fb : Fiber V W F) (ip : Nat) (stack : List V) : Except E V × W → Conf V W F E X
  | (.ok v, w) => .at (fb.goto ip (stack ++ [v]) w)
  | (.error e, w) => .done (.raise e w)

def jumpOrNext (fb : Fiber V W F) (off : Nat) (op : Op) (taken : Bool) : Nat :=
  if taken then
    match op with
    | .jump | .loop | .jumpIfFalse | .jumpIfTrue | .jumpIfNotNil =>
      (vm.chunk fb).jumpTarget (off + 1)
    | .jumpIfArgSupplied => (vm.chunk fb).jumpTarget (off + 3)
    | _ => off + 1 + op.operandWidth
  else off + 1 + op.operandWidth

def settleArm (fb : Fiber V W F) (off : Nat) (op : Op) : ArmResult V W F E X → Conf V W F E X
  | .step taken stack world rest =>
    .at ⟨{ fb.top with ip := vm.jumpOrNext fb off op taken, rest }, fb.below, stack, world⟩
  | .call fn slotBase callee stack world rest =>
    let caller := { fb.top with ip := off + 1 + op.operandWidth, rest }
    .at ⟨⟨fn, 0, slotBase, callee⟩, caller :: fb.below, stack, world⟩
  | .«return» stack world x =>
    match fb.below with
    | [] => .done (.exit x (fb.goto (off + 1 + op.operandWidth) stack world))
    | f :: fs => .at ⟨f, fs, stack, world⟩
  | .escalate x stack world rest =>
    .done (.exit x ⟨{ fb.top with ip := off, rest }, fb.below, stack, world⟩)
  | .finish x stack world rest =>
    let top := { fb.top with ip := off + 1 + op.operandWidth, rest }
    .done (.exit x ⟨top, fb.below, stack, world⟩)
  | .raise e w => .done (.raise e w)
  | .panic => .done .panic

def single (fb : Fiber V W F) (off : Nat) (op : Op) : Conf V W F E X :=
  let c := vm.chunk fb
  let next := off + 1 + op.operandWidth
  match op with
  | .getLocal =>
    match fb.get (c.readU16 (off + 1)) with
    | some v => .at (fb.goto next (fb.stack ++ [v]) fb.world)
    | none => .done .panic
  | .const =>
    match c.consts[c.readU16 (off + 1)]? with
    | some k => .at (fb.goto next (fb.stack ++ [vm.const k]) fb.world)
    | none => .done .panic
  | .getProp =>
    match c.consts[c.readU16 (off + 1)]? with
    | some (.str name) =>
      match Fiber.pop fb.stack with
      | some (obj, stack) =>
        settle fb next stack (vm.readMember fb.top.fn off name obj fb.world)
      | none => .done .panic
    | some k => .done (.raise (vm.notString fb.top.fn off k) fb.world)
    | none => .done .panic
  | .add =>
    match Fiber.pop fb.stack with
    | some (b, stack) =>
      match Fiber.pop stack with
      | some (a, stack) => settle fb next stack (vm.add fb.top.fn off a b fb.world)
      | none => .done .panic
    | none => .done .panic
  | op => vm.settleArm fb off op (vm.arm op off fb)

/-- `ByteSource`: the next instruction is at the frame's ip. -/
def byteStep (fb : Fiber V W F) : Conf V W F E X :=
  match ((vm.chunk fb).code[fb.top.ip]?).bind Op.fromU8 with
  | none => .done .panic
  | some op =>
    if syncLaneOp op then vm.single fb fb.top.ip op else .done (.exit vm.needsAsync fb)

def fusedGetProp (fb : Fiber V W F) (propOff nameIdx : Nat) (obj : V) :
    Option (Except E V × W) :=
  match (vm.chunk fb).consts[nameIdx]? with
  | some (.str name) => some (vm.readMember fb.top.fn propOff name obj fb.world)
  | some k => some (.error (vm.notString fb.top.fn propOff k), fb.world)
  | none => none

def fusedAdd (fb : Fiber V W F) (addOff ip : Nat) (stack : List V) :
    Except E V × W → Conf V W F E X
  | (.ok field, w) =>
    match Fiber.pop stack with
    | some (a, stack) => settle fb ip stack (vm.add fb.top.fn addOff a field w)
    | none => .done .panic
  | (.error e, w) => .done (.raise e w)

def execFused (fb : Fiber V W F) (headOff packed : Nat) (kind : FusedKind) : Conf V W F E X :=
  let c := vm.chunk fb
  let lo := packed % 2 ^ 16
  let hi := packed / 2 ^ 16 % 2 ^ 16
  let off1 := headOff + 1 + (kind.components[0]?.map (·.operandWidth)).getD 0
  let off2 := off1 + 1 + (kind.components[1]?.map (·.operandWidth)).getD 0
  match kind with
  | .getLocalGetProp =>
    match fb.get lo with
    | none => .done .panic
    | some lv =>
      match vm.fusedGetProp fb off1 hi lv with
      | none => .done .panic
      | some r => settle fb (off1 + 1 + Op.getProp.operandWidth) fb.stack r
  | .getLocalGetLocal =>
    match fb.get lo, fb.get hi with
    | some v₁, some v₂ =>
      .at (fb.goto (off1 + 1 + Op.getLocal.operandWidth) (fb.stack ++ [v₁] ++ [v₂]) fb.world)
    | _, _ => .done .panic
  | .getLocalConst =>
    match fb.get lo, c.consts[hi]? with
    | some v₁, some k =>
      .at (fb.goto (off1 + 1 + Op.const.operandWidth) (fb.stack ++ [v₁] ++ [vm.const k]) fb.world)
    | _, _ => .done .panic
  | .getPropAdd =>
    match Fiber.pop fb.stack with
    | none => .done .panic
    | some (obj, stack) =>
      match vm.fusedGetProp fb headOff lo obj with
      | none => .done .panic
      | some r => vm.fusedAdd fb off1 (off1 + 1 + Op.add.operandWidth) stack r
  | .constGetLocal =>
    match c.consts[lo]?, fb.get hi with
    | some k, some v₂ =>
      .at (fb.goto (off1 + 1 + Op.getLocal.operandWidth) (fb.stack ++ [vm.const k] ++ [v₂])
        fb.world)
    | _, _ => .done .panic
  | .getLocalGetPropAdd =>
    match fb.get lo with
    | none => .done .panic
    | some lv =>
      match vm.fusedGetProp fb off1 hi lv with
      | none => .done .panic
      | some r => vm.fusedAdd fb off2 (off2 + 1 + Op.add.operandWidth) fb.stack r

end Vm

/-- A cursor into the decoded stream of a function, and the frame count it is good for. -/
structure RecordSource where
  d : List DecodedInstr
  idx : Nat
  framesLen : Nat
  fn : Nat

namespace Vm

variable (vm : Vm V W F E X)

/-- What a record does; the head of a fused one decides whether the burst executes it. -/
def execRecord (fb : Fiber V W F) (r : DecodedInstr) : Conf V W F E X :=
  match r.op with
  | .base op =>
    if syncLaneOp op then vm.single fb r.off op else .done (.exit vm.needsAsync fb)
  | .fused kind =>
    if (kind.components[0]?).all syncLaneOp then vm.execFused fb r.off r.a kind
    else .done (.exit vm.needsAsync fb)

def decoded (warm : W → Nat → Bool) (fb : Fiber V W F) : Option (List DecodedInstr) :=
  if warm fb.world fb.top.fn then (vm.chunk fb).decodeChunk else none

def atEntry (warm : W → Nat → Bool) (fb : Fiber V W F) : Option RecordSource := do
  let d ← vm.decoded warm fb
  let idx ← DecodedInstr.indexOf d fb.top.ip
  some ⟨d, idx, fb.framesLen, fb.top.fn⟩

def resync (warm : W → Nat → Bool) (src : RecordSource) (fb : Fiber V W F) :
    Option RecordSource :=
  if fb.top.fn ≠ src.fn then vm.atEntry warm fb
  else do
    let idx ← DecodedInstr.indexOf src.d fb.top.ip
    some { src with idx := idx, framesLen := fb.framesLen }

def sequential (src : RecordSource) (fb : Fiber V W F) : Bool :=
  fb.framesLen = src.framesLen && (src.d[src.idx]?).any fun r => r.off = fb.top.ip

def fetch (warm : W → Nat → Bool) (src : RecordSource) (fb : Fiber V W F) :
    Option (DecodedInstr × RecordSource) :=
  (if sequential src fb then some src else vm.resync warm src fb).bind fun src =>
    (src.d[src.idx]?).map fun r => (r, src)

/-- One dispatch: from the records while they can be fetched, from the bytes otherwise. -/
def dispatch (warm : W → Nat → Bool) (s : Fiber V W F × Option RecordSource) :
    Outcome (Fiber V W F × Option RecordSource) (Final V W F E X) :=
  match s.2.bind fun src => vm.fetch warm src s.1 with
  | none => (vm.byteStep s.1).map fun fb => (fb, none)
  | some (r, src) =>
    (vm.execRecord s.1 r).map fun fb => (fb, some { src with idx := src.idx + 1 })

end Vm
end AScript.Bytecode
