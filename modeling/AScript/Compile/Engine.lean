import AScript.Bytecode.Dispatch
import AScript.Compile.Compile
import AScript.Compile.TreeWalk

/-! The stack machine on compiled programs (`vm/run.rs`): every instruction is executed by the
loop itself, and globals are found by their names. -/

namespace AScript.Compile

open AScript.Lib AScript.Syntax AScript.Bytecode

/-- The operator of an instruction (`binop_of`). -/
def binopOf : Op → Option BinOp
  | .sub => some .sub
  | .mul => some .mul
  | .div => some .div
  | .mod => some .mod
  | .pow => some .pow
  | .lt => some .lt
  | .le => some .le
  | .gt => some .gt
  | .ge => some .ge
  | .eq => some .eq
  | .ne => some .ne
  | .instanceOf => some .instanceOf
  | .bitAnd => some .bitAnd
  | .bitOr => some .bitOr
  | .bitXor => some .bitXor
  | .shl => some .shl
  | .shr => some .shr
  | .wrapAdd => some .wrapAdd
  | .wrapSub => some .wrapSub
  | .wrapMul => some .wrapMul
  | .range => some .range
  | _ => none

/-- `unop_of`. -/
def unopOf : Op → Option UnOp
  | .neg => some .neg
  | .not => some .not
  | .bitNot => some .bitNot
  | _ => none

/-- The world of the machine: its globals, and the rest. -/
structure Vars (h : Host) where
  host : h.W
  globals : IndexMap String (Globals.GlobalSlot h.V)

namespace Engine

variable (h : Host) (c : Chunk)

abbrev Cfg := Fiber h.V (Vars h) Unit

/-- A run ends with the value of the program, or asks for another driver. -/
abbrev Arm := ArmResult h.V (Vars h) Unit h.E (Option h.V)

abbrev End := Final h.V (Vars h) Unit h.E (Option h.V)

variable {h}

def next (stack : List h.V) (w : Vars h) : Arm h := .step false stack w ()

def jump (taken : Bool) (stack : List h.V) (w : Vars h) : Arm h := .step taken stack w ()

def pop (stack : List h.V) (f : h.V → List h.V → Arm h) : Arm h :=
  match Fiber.pop stack with
  | some (v, stack) => f v stack
  | none => .panic

def popN (n : Nat) (stack : List h.V) (f : List h.V → List h.V → Arm h) : Arm h :=
  if n ≤ stack.length then
    f (stack.drop (stack.length - n)) (stack.take (stack.length - n))
  else .panic

def push (stack : List h.V) (w : Vars h) : Except h.E h.V × h.W → Arm h
  | (.ok v, host) => next (stack ++ [v]) { w with host }
  | (.error e, host) => .raise e { w with host }

def named (operand : String) (k : Nat) (w : Vars h) (f : String → Arm h) : Arm h :=
  match c.consts[k]? with
  | some (.str name) => f name
  | some k => .raise (h.panic (operand ++ " is not a string constant: " ++ h.debug k)) w
  | none => .panic

def getGlobal (w : Vars h) (x : String) : Except h.E h.V :=
  match w.globals.get x with
  | some g => .ok g.value
  | none =>
    if x ∈ Globals.builtinNames then .ok (h.builtin x)
    else .error (h.panic (undefinedVariable x))

def defineGlobal (w : Vars h) (x : String) (v : h.V) (mutable : Bool) : Except h.E (Vars h) :=
  if w.globals.containsKey x then .error (h.panic (alreadyDefined x))
  else .ok { w with globals := w.globals.insert x ⟨v, mutable⟩ }

def setGlobal (w : Vars h) (x : String) (v : h.V) : Except h.E (Vars h) :=
  match w.globals.get x with
  | some ⟨_, true⟩ => .ok { w with globals := w.globals.insert x ⟨v, true⟩ }
  | some ⟨_, false⟩ => .error (h.panic (cannotAssignImmutable x))
  | none => .error (h.panic (cannotAssignUndefined x))

def stored (stack : List h.V) (w : Vars h) : Except h.E (Vars h) → Arm h
  | .ok w => next stack w
  | .error e => .raise e w

/-- The arms of `run_loop`. What the instructions that are never emitted here do is left
open. -/
def arm (others : Op → Nat → Cfg h → Arm h) (op : Op) (off : Nat) (fb : Cfg h) : Arm h :=
  let w := fb.world
  match op with
  | .nil => next (fb.stack ++ [h.nil]) w
  | .pop => pop fb.stack fun _ st => next st w
  | .dup => pop fb.stack fun v st => next (st ++ [v] ++ [v]) w
  | .swap => pop fb.stack fun b st => pop st fun a st => next (st ++ [b] ++ [a]) w
  | .rot3 =>
    pop fb.stack fun x st => pop st fun b st => pop st fun a st => next (st ++ [b] ++ [x] ++ [a]) w
  | .setLocal =>
    pop fb.stack fun v st =>
      let i := fb.top.slotBase + c.readU16 (off + 1)
      if i < st.length then next (st.set i v) w else .panic
  | .getGlobal =>
    named c "GET_GLOBAL operand" (c.readU16 (off + 1)) w fun x =>
      push fb.stack w (getGlobal w x, w.host)
  | .defineGlobal =>
    named c "DEFINE_GLOBAL operand" (c.readU16 (off + 1)) w fun x =>
      pop fb.stack fun v st => stored st w (defineGlobal w x v (c.readU8 (off + 3) ≠ 0))
  | .setGlobal =>
    named c "SET_GLOBAL operand" (c.readU16 (off + 1)) w fun x =>
      pop fb.stack fun v _ => stored fb.stack w (setGlobal w x v)
  | .immutableError =>
    named c "IMMUTABLE_ERROR operand" (c.readU16 (off + 1)) w fun x =>
      .raise (h.panic (cannotAssignImmutable x)) w
  | .instanceOfType =>
    named c "INSTANCE_OF_TYPE name" (c.readU16 (off + 1)) w fun ty =>
      pop fb.stack fun v st => next (st ++ [h.bool (h.instanceofReservedType v ty)]) w
  | .jump | .loop => jump true fb.stack w
  | .jumpIfFalse => pop fb.stack fun v st => jump (!h.isTruthy v) st w
  | .jumpIfTrue => pop fb.stack fun v st => jump (h.isTruthy v) st w
  | .jumpIfNotNil => pop fb.stack fun v st => jump (!h.isNil v) st w
  | .call =>
    popN (c.readU8 (off + 1)) fb.stack fun args st =>
      pop st fun f st => push st w (h.callValue f args w.host)
  | .«return» => pop fb.stack fun v st => .return st w (some v)
  | .newArray =>
    popN (c.readU16 (off + 1)) fb.stack fun vs st =>
      push st w ((h.newArray vs w.host).map .ok id)
  | .getIndex =>
    pop fb.stack fun i st => pop st fun o st => push st w (h.indexGet o i w.host)
  | .setIndex =>
    pop fb.stack fun v st => pop st fun i st => pop st fun o st =>
      push st w (h.indexSet o i v w.host)
  | .setProp =>
    named c "SET_PROP operand" (c.readU16 (off + 1)) w fun name =>
      pop fb.stack fun v st => pop st fun o st => push st w (h.setMember o name v w.host)
  | .getPropOpt =>
    named c "GET_PROP operand" (c.readU16 (off + 1)) w fun name =>
      pop fb.stack fun o st =>
        if h.isNil o then next (st ++ [h.nil]) w else push st w (h.readMember o name w.host)
  | op =>
    match binopOf op with
    | some b => pop fb.stack fun r st => pop st fun l st => push st w (h.applyBinop b l r w.host)
    | none =>
      match unopOf op with
      | some u => pop fb.stack fun v st => push st w (h.applyUnop u v, w.host)
      | none => others op off fb

def lift (f : h.W → Except h.E α × h.W) (w : Vars h) : Except h.E α × Vars h :=
  ((f w.host).1, { w with host := (f w.host).2 })

def vm (others : Op → Nat → Cfg h → Arm h) : Vm h.V (Vars h) Unit h.E (Option h.V) where
  program _ := c
  const := h.const
  readMember _ _ name obj := lift (h.readMember obj name)
  notString _ _ k := h.panic ("GET_PROP operand is not a string constant: " ++ h.debug k)
  add _ _ l r := lift (h.applyBinop .add l r)
  arm := arm c others
  needsAsync := none

/-- One turn of `run_loop`. -/
def step (others : Op → Nat → Cfg h → Arm h) (fb : Cfg h) : Outcome (Cfg h) (End h) :=
  match (c.code[fb.top.ip]?).bind Op.fromU8 with
  | none => .done .panic
  | some op => (vm c others).single fb fb.top.ip op

def cfg (ip : Nat) (stack : List h.V) (w : Vars h) : Cfg h := ⟨⟨0, ip, 0, ()⟩, [], stack, w⟩

/-- Before the first instruction. -/
def start (w : h.W) : Cfg h :=
  cfg 0 (List.replicate c.slotCount.toNat h.nil) ⟨w, .empty⟩

/-- What a finished run shows: its panic if it has one, and the world. -/
def shown : End h → Option (Except h.E Unit × h.W)
  | .exit (some _) fb => some (.ok (), fb.world.host)
  | .raise e w => some (.error e, w.host)
  | .exit none _ | .panic => none

end Engine
end AScript.Compile
