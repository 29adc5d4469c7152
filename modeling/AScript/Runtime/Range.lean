import AScript.Lib.Rounding

namespace AScript.Runtime

open AScript.Lib

/-- The values a range meets; the others only show their type. -/
inductive Scalar
  | int (i : I64)
  | float (d : Datum)
  | other (typeName : String)
  deriving DecidableEq

namespace Scalar

def asF64 : Scalar → Option Datum
  | int i => some (.ofI64 i)
  | float d => some d
  | other _ => none

def isIntValue : Scalar → Bool
  | int _ => true
  | _ => false

def typeName : Scalar → String
  | int _ => "int"
  | float _ => "float"
  | other t => t

def asIntExact : Scalar → Option I64
  | int i => some i
  | float d =>
    if d.isFinite && d.fract.beq (.fin 0) && (Datum.ofInt (-2 ^ 63)).le d &&
        d.lt (.ofInt (2 ^ 63)) then
      some d.toI64
    else none
  | other _ => none

end Scalar

inductive RangeError
  | zeroStep
  | movesAway (step hi : Datum)
  | bounds
  | step
  | argument (got : String)
  | arity (got : Nat)
  | builtinZeroStep
  deriving DecidableEq

def RangeError.message (formatNumber : Datum → String) : RangeError → String
  | zeroStep => "step must be a finite, non-zero number"
  | movesAway s hi =>
    "step " ++ formatNumber s ++ " moves away from end (" ++ formatNumber hi ++
      "); range can never progress"
  | bounds => "range bounds must be numbers"
  | step => "range step must be a number"
  | argument got => "range() expects number arguments, got " ++ got
  | arity got => "range() expects 1 to 3 arguments, got " ++ toString got
  | builtinZeroStep => "range() step must not be zero"

def zero : Datum := .fin 0

def inferredStep (lo hi : Datum) : Datum := if lo.le hi then .ofInt 1 else .ofInt (-1)

def resolveStep (lo hi : Datum) : Option Datum → Except RangeError Datum
  | some s =>
    if s.beq zero || !s.isFinite then .error .zeroStep
    else if !lo.beq hi && zero.lt s != lo.lt hi then .error (.movesAway s hi)
    else .ok s
  | none => .ok (inferredStep lo hi)

def rangeCounterValue (i : Datum) (yieldsInt : Bool) : Scalar :=
  match yieldsInt, (Scalar.float i).asIntExact with
  | true, some n => .int n
  | _, _ => .float i

def rangeHasNext (i hi step : Datum) (inclusive : Bool) : Bool :=
  if zero.lt step then if inclusive then i.le hi else i.lt hi
  else if inclusive then hi.le i else hi.lt i

def countFrom (hasNext : Datum → Bool) (step : Datum) (yieldsInt : Bool) :
    Nat → Datum → Option (List Scalar)
  | 0, _ => none
  | fuel + 1, i =>
    if hasNext i then
      (countFrom hasNext step yieldsInt fuel (i.add step)).map (rangeCounterValue i yieldsInt :: ·)
    else some []

def materializeRangeStepped (fuel : Nat) (l r : Scalar) (inclusive : Bool) (step : Option Scalar) :
    Option (Except RangeError (List Scalar)) :=
  match l.asF64, r.asF64 with
  | some lo, some hi =>
    match step.map Scalar.asF64 with
    | some none => some (.error .step)
    | stepV =>
      match resolveStep lo hi stepV.join with
      | .error e => some (.error e)
      | .ok resolved =>
        let yieldsInt := l.isIntValue && r.isIntValue && step.all Scalar.isIntValue
        (countFrom (rangeHasNext · hi resolved inclusive) resolved yieldsInt fuel lo).map .ok
  | _, _ => some (.error .bounds)

def wantNum (v : Scalar) : Except RangeError (Datum × Bool) :=
  match v.asF64 with
  | some n => .ok (n, v.isIntValue)
  | none => .error (.argument v.typeName)

def rangeArgs : List Scalar → Except RangeError ((Datum × Bool) × (Datum × Bool) × (Datum × Bool))
  | [stop] => do return ((zero, true), ← wantNum stop, (.ofInt 1, true))
  | [start, stop] => do return (← wantNum start, ← wantNum stop, (.ofInt 1, true))
  | [start, stop, step] => do return (← wantNum start, ← wantNum stop, ← wantNum step)
  | args => .error (.arity args.length)

/-- The `range` builtin. -/
def range (fuel : Nat) (args : List Scalar) : Option (Except RangeError (List Scalar)) :=
  match rangeArgs args with
  | .error e => some (.error e)
  | .ok ((start, sInt), (stop, eInt), (step, kInt)) =>
    if step.beq zero then some (.error .builtinZeroStep)
    else
      let hasNext := fun i => if zero.lt step then i.lt stop else stop.lt i
      (countFrom hasNext step (sInt && eInt && kInt) fuel start).map .ok

def rangePatternContains (x lo hi : Datum) (stepV : Option Datum) (inclusive : Bool) : Bool :=
  let step := stepV.getD (inferredStep lo hi)
  let upperOk := rangeHasNext x hi step inclusive
  let lowerOk := if zero.lt step then lo.le x else x.le lo
  upperOk && lowerOk &&
    match stepV with
    | none => true
    | some k =>
      let q := (x.sub lo).div k
      zero.le q && q.fract.beq zero

/-- How far the sequence moves at a time. -/
def stride (lo hi : I64) (k : Option I64) : Int :=
  match k with
  | some k => k.val
  | none => if lo.val ≤ hi.val then 1 else -1

/-- `lo, lo + k, lo + 2 k, ...` up to the bound. -/
def elements (lo hi k : Int) (inclusive : Bool) : List Int :=
  let far := if 0 < k then hi - lo else lo - hi
  let last := if inclusive then far else far - 1
  (List.range (last / k.natAbs + 1).toNat).map fun (j : Nat) => lo + j * k

def Inside (hi k : Int) (inclusive : Bool) (x : Int) : Prop :=
  if 0 < k then if inclusive then x ≤ hi else x < hi else if inclusive then hi ≤ x else hi < x

instance : Decidable (Inside hi k inclusive x) :=
  inferInstanceAs (Decidable (if 0 < k then _ else _))

end AScript.Runtime
