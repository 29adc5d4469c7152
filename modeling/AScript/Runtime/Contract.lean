import AScript.Runtime.Heap
import AScript.Syntax.Ast

/-! Runtime type contracts (`check_type` and `check_type_env` of `interp.rs`). -/

namespace AScript.Runtime

open AScript.Lib AScript.Syntax

variable {D A : Type}

def isCallable : Val D A → Bool
  | .other (.code .function) | .other (.code .closure) | .other (.code .builtin) => true
  | _ => false

def isNil : Val D A → Bool
  | .nil => true
  | _ => false

def isNumber : Val D A → Bool
  | .int _ | .float _ => true
  | _ => false

def isObject (h : Heap D A) (v : Val D A) : Bool :=
  match h.cell? v with
  | some (.object _) => true
  | _ => false

def isNamed (h : Heap D A) (name : String) (v : Val D A) : Bool :=
  match v with
  | .other (.variant enumName _ _ _ _ _) => enumName == name
  | v =>
    match h.cell? v with
    | some (.instance cls _) => (cls.name :: cls.superclasses).contains name
    | _ => false

mutual

/-- `check_type`. -/
def checkType (h : Heap D A) : Ty → Val D A → Bool
  | .any, _ => true
  | .number, v => isNumber v
  | .int, .int _ => true
  | .int, _ => false
  | .float, .float _ => true
  | .float, _ => false
  | .string, .str _ => true
  | .string, _ => false
  | .bool, .bool _ => true
  | .bool, _ => false
  | .nil, v => isNil v
  | .object, v => isObject h v
  | .fn, v => isCallable v
  | .error, v => isObject h v || isNil v
  | .array elem, v =>
    match h.cell? v with
    | some (.array items) => items.all (checkType h elem)
    | _ => false
  | .result inner, v =>
    match h.cell? v with
    | some (.array [v₀, v₁]) => (checkType h inner v₀ || isNil v₀) && (isObject h v₁ || isNil v₁)
    | _ => false
  | .tuple types, v =>
    match h.cell? v with
    | some (.array items) => checkTypes h types items
    | _ => false
  | .union a b, v => checkType h a v || checkType h b v
  | .named name, v => isNamed h name v
  | .map k v, m =>
    match h.cell? m with
    | some (.map entries) =>
      entries.entries.all fun e => checkType h k e.1.toValue && checkType h v e.2
    | _ => false
  | .future _, .other (.code .future) => true
  | .future _, _ => false
  | .optional inner, v => checkType h inner v || isNil v
  | .param _, _ => true
  | .fnSig _ _, v => isCallable v

def checkTypes (h : Heap D A) : List Ty → List (Val D A) → Bool
  | [], [] => true
  | t :: ts, v :: vs => checkType h t v && checkTypes h ts vs
  | _, _ => false

end

/-- How an environment resolves a name that is a class or an interface there: the test for
its instances, which may fail. -/
abbrev Env (D A E : Type) := String → Option (Heap D A → Val D A → Except E Bool)

def allM (f : α → Except E Bool) : List α → Except E Bool
  | [] => .ok true
  | x :: xs => do if ← f x then allM f xs else return false

/-- `check_type_env`. -/
def checkTypeEnv {E : Type} (h : Heap D A) (env : Env D A E) : Ty → Val D A → Except E Bool
  | .named name, v =>
    match env name with
    | some test => test h v
    | none => .ok (checkType h (.named name) v)
  | .optional inner, v => if isNil v then .ok true else checkTypeEnv h env inner v
  | .union a b, v => do if ← checkTypeEnv h env a v then return true else checkTypeEnv h env b v
  | .array elem, v =>
    match h.cell? v with
    | some (.array items) => allM (checkTypeEnv h env elem) items
    | _ => .ok false
  | .map k v, m =>
    match h.cell? m with
    | some (.map entries) =>
      allM (fun e => if checkType h k e.1.toValue then checkTypeEnv h env v e.2 else .ok false)
        entries.entries
    | _ => .ok false
  | ty, v => .ok (checkType h ty v)

end AScript.Runtime
