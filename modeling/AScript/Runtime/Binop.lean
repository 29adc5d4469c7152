import AScript.Runtime.Number
import AScript.Runtime.Range
import AScript.Syntax.Ast
import AScript.Syntax.LexLiterals

namespace AScript.Runtime

open AScript.Lib AScript.Syntax

/-- What the operators take from elsewhere: binary64 arithmetic, decimals, and the kinds,
display and arrays of values. -/
structure Externs (D O : Type) where
  ofI64 : I64 → F64
  add : F64 → F64 → F64
  sub : F64 → F64 → F64
  mul : F64 → F64 → F64
  div : F64 → F64 → F64
  rem : F64 → F64 → F64
  powf : F64 → F64 → F64
  decOfInt : I64 → D
  decOfFloat : F64 → Option D
  decAdd : D → D → Option D
  decSub : D → D → Option D
  decMul : D → D → Option D
  decDiv : D → D → Option D
  decRem : D → D → Option D
  decIsZero : D → Bool
  decLt : D → D → Bool
  typeName : O → String
  formatNumber : Datum → String
  array : List Scalar → O

/-- A panic with its message, an arm that the code calls unreachable, or a range that outruns
its fuel. -/
inductive BinopStop
  | panic (message : String)
  | unreachable
  | spins
  deriving DecidableEq

variable {D O : Type} (x : Externs D O)

def typeNameOf : Value D O → String
  | .nil => "nil"
  | .bool _ => "bool"
  | .int _ => "int"
  | .float _ => "float"
  | .decimal _ => "decimal"
  | .str _ => "string"
  | .other o => x.typeName o

def toScalar : Value D O → Scalar
  | .int i => .int i
  | .float f => .float f.decode
  | v => .other (typeNameOf x v)

def isIntOnlyBinop : BinOp → Bool
  | .bitAnd | .bitOr | .bitXor | .shl | .shr | .wrapAdd | .wrapSub | .wrapMul => true
  | _ => false

def intOnlyFloatMsg : BinOp → String
  | .wrapAdd | .wrapSub | .wrapMul => "wrapping op requires int operands, got float"
  | _ => "bitwise op requires int operands, got float"

def orPanic (message : String) : Option α → Except BinopStop α
  | some a => .ok a
  | none => .error (.panic message)

def overflow (o : String) : String := "integer overflow in '" ++ o ++ "'"

def intShift (a b : I64) (left : Bool) : Except BinopStop I64 :=
  if 0 ≤ b.val ∧ b.val < 64 then
    .ok (.ofBits (if left then a.bits <<< b.val.toNat else a.bits.sshiftRight b.val.toNat))
  else .error (.panic ("shift amount out of range: " ++ toString b.val))

/-- A negative exponent, or one above `u32::MAX`, makes a float. -/
def intPow (base exp : I64) : Except BinopStop (Value D O) :=
  if 0 ≤ exp.val ∧ exp.val < 2 ^ 32 then
    .int <$> orPanic (overflow "**") (checkedI64 (base.val ^ exp.val.toNat))
  else .ok (.float (x.powf (x.ofI64 base) (x.ofI64 exp)))

def intBinop (op : BinOp) (a b : I64) : Except BinopStop (Value D O) :=
  match op with
  | .add => .int <$> orPanic (overflow "+") (checkedI64 (a.val + b.val))
  | .sub => .int <$> orPanic (overflow "-") (checkedI64 (a.val - b.val))
  | .mul => .int <$> orPanic (overflow "*") (checkedI64 (a.val * b.val))
  | .div =>
    if b.val = 0 then .error (.panic "integer division by zero")
    else .int <$> orPanic (overflow "/") (checkedI64 (a.val.tdiv b.val))
  | .mod =>
    if b.val = 0 then .error (.panic "integer remainder by zero")
    -- `checked_rem` refuses what `checked_div` refuses
    else .int <$> orPanic (overflow "%")
      ((checkedI64 (a.val.tdiv b.val)).bind fun _ => checkedI64 (a.val.tmod b.val))
  | .pow => intPow x a b
  | .lt => .ok (.bool (a.val < b.val))
  | .le => .ok (.bool (a.val ≤ b.val))
  | .gt => .ok (.bool (b.val < a.val))
  | .ge => .ok (.bool (b.val ≤ a.val))
  | .bitAnd => .ok (.int (.ofBits (a.bits &&& b.bits)))
  | .bitOr => .ok (.int (.ofBits (a.bits ||| b.bits)))
  | .bitXor => .ok (.int (.ofBits (a.bits ^^^ b.bits)))
  | .shl => .int <$> intShift a b true
  | .shr => .int <$> intShift a b false
  | .wrapAdd => .ok (.int (.wrap (a.val + b.val)))
  | .wrapSub => .ok (.int (.wrap (a.val - b.val)))
  | .wrapMul => .ok (.int (.wrap (a.val * b.val)))
  | .eq | .ne | .range | .instanceOf | .and | .or | .coalesce => .error .unreachable

def floatBinop (op : BinOp) (a b : F64) : Except BinopStop (Value D O) :=
  match op with
  | .add => .ok (.float (x.add a b))
  | .sub => .ok (.float (x.sub a b))
  | .mul => .ok (.float (x.mul a b))
  | .div => .ok (.float (x.div a b))
  | .mod => .ok (.float (x.rem a b))
  | .pow => .ok (.float (x.powf a b))
  | .lt => .ok (.bool (a.lt b))
  | .le => .ok (.bool (a.le b))
  | .gt => .ok (.bool (b.lt a))
  | .ge => .ok (.bool (b.le a))
  | .eq | .ne | .range | .instanceOf | .bitAnd | .bitOr | .bitXor | .shl | .shr | .wrapAdd
  | .wrapSub | .wrapMul | .and | .or | .coalesce => .error .unreachable

def mixedBinop (op : BinOp) (i : I64) (f : F64) (floatFirst : Bool) :
    Except BinopStop (Value D O) :=
  let cmp := fun (hit : Ordering → Bool) =>
    match intCmpFloat i f with
    | none => false
    | some ord => hit (if floatFirst then ord.swap else ord)
  match op with
  | .lt => .ok (.bool (cmp fun ord => ord == .lt))
  | .le => .ok (.bool (cmp fun ord => ord == .lt || ord == .eq))
  | .gt => .ok (.bool (cmp fun ord => ord == .gt))
  | .ge => .ok (.bool (cmp fun ord => ord == .eq || ord == .gt))
  | op => if floatFirst then floatBinop x op f (x.ofI64 i) else floatBinop x op (x.ofI64 i) f

def coerceToDecimal : Value D O → Except BinopStop (Option D)
  | .decimal d => .ok (some d)
  | .int i => .ok (some (x.decOfInt i))
  | .float f =>
    if !f.isFinite then .error (.panic "cannot convert non-finite number to decimal")
    else some <$> orPanic "cannot convert number to decimal (out of range)" (x.decOfFloat f)
  | _ => .ok none

def decimalBinop [DecidableEq D] (op : BinOp) (a b : D) : Except BinopStop (Value D O) :=
  let checked := fun what r => .decimal <$> orPanic ("decimal " ++ what ++ " overflowed") r
  match op with
  | .add => checked "addition" (x.decAdd a b)
  | .sub => checked "subtraction" (x.decSub a b)
  | .mul => checked "multiplication" (x.decMul a b)
  | .div =>
    if x.decIsZero b then .error (.panic "decimal division by zero")
    else checked "division" (x.decDiv a b)
  | .mod =>
    if x.decIsZero b then .error (.panic "decimal remainder by zero")
    else checked "remainder" (x.decRem a b)
  | .lt => .ok (.bool (x.decLt a b))
  | .le => .ok (.bool (x.decLt a b || a == b))
  | .gt => .ok (.bool (x.decLt b a))
  | .ge => .ok (.bool (x.decLt b a || a == b))
  | .pow => .error (.panic
      "exponentiation (**) is not supported for decimal; use math.pow or convert to number")
  | .bitAnd | .bitOr | .bitXor | .shl | .shr | .wrapAdd | .wrapSub | .wrapMul =>
    .error (.panic (intOnlyFloatMsg op))
  | .eq | .ne | .range | .instanceOf | .and | .or | .coalesce => .error .unreachable

/-- Decimals against the other numbers, every other pair by `PartialEq`. -/
def decimalCrossEq [DecidableEq D] [BEq O] : Value D O → Value D O → Except BinopStop Bool
  | .decimal a, .decimal b => .ok (a == b)
  | .decimal a, .int i | .int i, .decimal a => .ok (a == x.decOfInt i)
  | .decimal a, .float n | .float n, .decimal a =>
    if !n.isFinite then .ok false
    else (a == ·) <$> orPanic "cannot convert number to decimal for comparison" (x.decOfFloat n)
  | l, r => .ok (l.eq r)

def isDecimal : Value D O → Bool
  | .decimal _ => true
  | _ => false

def isFloat : Value D O → Bool
  | .float _ => true
  | _ => false

def numericBinop (op : BinOp) : Value D O → Value D O → Except BinopStop (Value D O)
  | .int a, .int b => intBinop x op a b
  | .int i, .float f => mixedBinop x op i f false
  | .float f, .int i => mixedBinop x op i f true
  | .float a, .float b => floatBinop x op a b
  | l, r => .error (.panic
      ("operator requires two numbers (or two decimals, or number and decimal), got " ++
        typeNameOf x l ++ " and " ++ typeNameOf x r))

def arithBinop [DecidableEq D] (op : BinOp) (l r : Value D O) :
    Except BinopStop (Value D O) := do
  let both ←
    if isDecimal l || isDecimal r then do
      let da ← coerceToDecimal x l
      let db ← coerceToDecimal x r
      .ok (da.bind fun a => db.map fun b => (a, b))
    else .ok none
  match both with
  | some (a, b) => decimalBinop x op a b
  | none =>
    if isIntOnlyBinop op && (isFloat l || isFloat r) then .error (.panic (intOnlyFloatMsg op))
    else numericBinop x op l r

/-- `fuel` is for the range operator's loop alone. -/
def applyBinop [DecidableEq D] [BEq O] (fuel : Nat) (op : BinOp) (l r : Value D O) :
    Except BinopStop (Value D O) :=
  match op, l, r with
  | .eq, l, r => .bool <$> decimalCrossEq x l r
  | .ne, l, r => (fun eq => .bool !eq) <$> decimalCrossEq x l r
  | .range, l, r =>
    match materializeRangeStepped fuel (toScalar x l) (toScalar x r) false none with
    | none => .error .spins
    | some (.error e) => .error (.panic (e.message x.formatNumber))
    | some (.ok items) => .ok (.other (x.array items))
  | .instanceOf, _, _ => .error .unreachable
  | .add, .str a, .str b => .ok (.str (a ++ b))
  | op, l, r => arithBinop x op l r

end AScript.Runtime
