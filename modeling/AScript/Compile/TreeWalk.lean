import AScript.Compile.Syntax
import AScript.Bytecode.Globals

/-! The tree-walker (`interp.rs`, `env.rs`), over the operations it shares with the machine. -/

namespace AScript.Compile

open AScript.Lib AScript.Syntax AScript.Bytecode

/-- What both engines call: values, and the operations on them over the rest of the world. -/
structure Host where
  V : Type
  W : Type
  E : Type
  nil : V
  bool : Bool → V
  const : Const → V
  builtin : String → V
  isTruthy : V → Bool
  /-- `== Value::nil()`. -/
  isNil : V → Bool
  isNil_iff : isNil v = true ↔ v = nil
  panic : String → E
  /-- A constant, as a message shows it. -/
  debug : Const → String
  applyUnop : UnOp → V → Except E V
  applyBinop : BinOp → V → V → W → Except E V × W
  instanceofReservedType : V → String → Bool
  newArray : List V → W → V × W
  readMember : V → String → W → Except E V × W
  setMember : V → String → V → W → Except E V × W
  indexGet : V → V → W → Except E V × W
  indexSet : V → V → V → W → Except E V × W
  callValue : V → List V → W → Except E V × W

def undefinedVariable (x : String) : String := "undefined variable '" ++ x ++ "'"

def alreadyDefined (x : String) : String := "'" ++ x ++ "' is already defined in this scope"

def cannotAssignUndefined (x : String) : String :=
  "cannot assign to undefined variable '" ++ x ++ "'"

def cannotAssignImmutable (x : String) : String :=
  "cannot assign to immutable binding '" ++ x ++ "'"

structure Binding (V : Type) where
  value : V
  mutable : Bool

abbrev Environment (V : Type) := List (IndexMap String (Binding V))

inductive AssignError
  | undefined
  | immutable

namespace Environment

variable {V : Type}

def child (env : Environment V) : Environment V := .empty :: env

def get (env : Environment V) (x : String) : Option V := (env.findSome? (·.get x)).map (·.value)

def define (env : Environment V) (x : String) (v : V) (mutable : Bool) :
    Except String (Environment V) :=
  match env with
  | [] => .ok []
  | scope :: env =>
    if scope.containsKey x then .error (alreadyDefined x)
    else .ok (scope.insert x ⟨v, mutable⟩ :: env)

def assign (x : String) (v : V) : Environment V → Except AssignError (Environment V)
  | [] => .error .undefined
  | scope :: env =>
    match scope.get x with
    | some b => if b.mutable then .ok (scope.insert x { b with value := v } :: env)
      else .error .immutable
    | none => (assign x v env).map (scope :: ·)

end Environment

structure State (h : Host) where
  env : Environment h.V
  world : h.W

abbrev Eval (h : Host) := ExceptT h.E (StateM (State h))

abbrev Exec (h : Host) := ExceptT h.E (StateT (State h) Option)

inductive Flow (V : Type)
  | normal
  | «break»
  | «continue»
  | «return» (v : V)

variable {h : Host}

namespace Eval

def world (f : h.W → Except h.E α × h.W) : Eval h α := fun s =>
  let (r, w) := f s.world
  (r, { s with world := w })

def ident (x : String) : Eval h h.V := fun s =>
  match s.env.get x with
  | some v => (.ok v, s)
  | none => (.error (h.panic (undefinedVariable x)), s)

/-- `assign_to` a name. -/
def assign (x : String) (v : h.V) : Eval h h.V := fun s =>
  match s.env.assign x v with
  | .ok env => (.ok v, { s with env })
  | .error .undefined => (.error (h.panic (cannotAssignUndefined x)), s)
  | .error .immutable => (.error (h.panic (cannotAssignImmutable x)), s)

/-- One level of `eval_expr`, if there is one left (`DepthGuard::enter`). -/
def nested (m : Nat → Eval h α) : Nat → Eval h α
  | 0 => throw (h.panic recursionDepthExceeded)
  | left + 1 => m left

def whole (m : Nat → Eval h h.V) : Nat → Eval h (h.V × Bool) :=
  nested fun left => return (← m left, false)

def alone (e : Expr String) (chain : Nat → Eval h (h.V × Bool)) (left : Nat) : Eval h h.V := do
  let (v, _) ← if e.isLink then nested chain left else chain left
  return v

def value (op : AssignOp) (target value : Nat → Eval h h.V) : Nat → Eval h h.V :=
  match op.binop with
  | none => value
  | some b => nested fun left => do
    let l ← target left
    let r ← value left
    world (h.applyBinop b l r)

def binary (op : BinOp) (l r : Eval h h.V) (typeName : Option String) : Eval h h.V :=
  match op with
  | .and => do
    let a ← l
    if h.isTruthy a then r else pure a
  | .or => do
    let a ← l
    if h.isTruthy a then pure a else r
  | .coalesce => do
    let a ← l
    if h.isNil a then r else pure a
  | op =>
    match if op = .instanceOf then typeName else none with
    | some ty => do
      let a ← l
      pure (h.bool (h.instanceofReservedType a ty))
    | none => do
      let a ← l
      let b ← r
      world (h.applyBinop op a b)

def link (obj : Eval h (h.V × Bool)) (rest : h.V → Eval h h.V) : Eval h (h.V × Bool) := do
  let (v, cut) ← obj
  if cut then return (h.nil, true) else return (← rest v, false)

/-- The same behind `?.`. -/
def optLink (obj : Eval h (h.V × Bool)) (rest : h.V → Eval h h.V) : Eval h (h.V × Bool) := do
  let (v, cut) ← obj
  if cut || h.isNil v then return (h.nil, true) else return (← rest v, false)

end Eval

open Eval

mutual

/-- `eval_chain`, with so many levels of `eval_expr` left below it. What is no link is evaluated
by `eval_expr`: then nothing is cut. -/
def evalChain : Expr String → Nat → Eval h (h.V × Bool)
  | .literal l => whole fun _ => return h.const l.const
  | .nameRef x => whole fun _ => ident x
  | .paren e => whole (alone e (evalChain e))
  | .unary op e => whole fun left => do
    let v ← alone e (evalChain e) left
    world fun w => (h.applyUnop op v, w)
  | .binary op l r => whole fun left =>
    binary op (alone l (evalChain l) left) (alone r (evalChain r) left) (r.reservedTypeName id)
  | .ternary c t e => whole fun left => do
    let v ← alone c (evalChain c) left
    if h.isTruthy v then alone t (evalChain t) left else alone e (evalChain e) left
  | .assignName op x v => whole fun left => do
    let v ← value op (nested fun _ => ident x) (alone v (evalChain v)) left
    assign x v
  | .assignMember op obj field v => whole fun left => do
    let target := alone (.member obj field) fun left =>
      link (evalChain obj left) fun o => world (h.readMember o field)
    let v ← value op target (alone v (evalChain v)) left
    let o ← alone obj (evalChain obj) left
    world (h.setMember o field v)
  | .assignIndex op obj idx v => whole fun left => do
    let target := alone (.index obj idx) fun left =>
      link (evalChain obj left) fun o => do
        let i ← alone idx (evalChain idx) left
        world (h.indexGet o i)
    let v ← value op target (alone v (evalChain v)) left
    let o ← alone obj (evalChain obj) left
    let i ← alone idx (evalChain idx) left
    world (h.indexSet o i v)
  | .array es => whole fun left => do
    let vs ← evalItems es left
    world fun w => ((h.newArray vs w).map .ok id)
  | .index base idx => fun left =>
    link (evalChain base left) fun o => do
      let i ← alone idx (evalChain idx) left
      world (h.indexGet o i)
  | .member obj name => fun left =>
    link (evalChain obj left) fun o => world (h.readMember o name)
  | .optMember obj name => fun left =>
    optLink (evalChain obj left) fun o => world (h.readMember o name)
  | .call callee args => fun left =>
    link (evalChain callee left) fun f => do
      let vs ← evalItems args left
      world (h.callValue f vs)

def evalItems : List (Expr String) → Nat → Eval h (List h.V)
  | [], _ => return []
  | e :: es, left => do
    let v ← alone e (evalChain e) left
    return v :: (← evalItems es left)

end

/-- `eval_expr` of a statement. -/
def evalExpr (e : Expr String) : Eval h h.V := alone e (evalChain e) exprNestLimit

namespace Exec

def eval (m : Eval h α) : Exec h α := fun s => some (m s)

def inChild (m : Exec h α) : Exec h α := fun s =>
  (m { s with env := s.env.child }).map fun (r, s) => (r, { s with env := s.env.tail })

def define (b : Binder) (v : h.V) : Exec h Unit := fun s =>
  match s.env.define b.name v b.mutable with
  | .ok env => some (.ok (), { s with env })
  | .error m => some (.error (h.panic m), s)

def whileLoop (cond : Exec h Bool) (body : Exec h (Flow h.V)) : Nat → Exec h (Flow h.V)
  | 0 => fun _ => none
  | fuel + 1 => do
    if ← cond then
      match ← body with
      | .break => return .normal
      | .return v => return .return v
      | .continue | .normal => whileLoop cond body fuel
    else return .normal

end Exec

open Exec

mutual

/-- `exec_stmt`. -/
def execStmt (fuel : Nat) : Stmt String Binder → Exec h (Flow h.V)
  | .expr e => do
    let _ ← eval (evalExpr e)
    return .normal
  | .letStmt b init => do
    let v ← init.elim (pure h.nil) fun e => eval (evalExpr e)
    define b v
    return .normal
  | .block b => inChild (execStmts fuel b)
  | .ifThen c t => do
    if h.isTruthy (← eval (evalExpr c)) then inChild (execStmts fuel t) else return .normal
  | .ifElse c t e => do
    if h.isTruthy (← eval (evalExpr c)) then inChild (execStmts fuel t)
    else inChild (execStmts fuel e)
  | .elseIf c t e => do
    if h.isTruthy (← eval (evalExpr c)) then inChild (execStmts fuel t)
    else inChild (execStmt fuel e)
  | .whileLoop c b =>
    whileLoop (return h.isTruthy (← eval (evalExpr c))) (inChild (execStmts fuel b)) fuel
  | .breakStmt => return .break
  | .continueStmt => return .continue
  | .returnStmt e => return .return (← e.elim (pure h.nil) fun e => eval (evalExpr e))

/-- `exec`. -/
def execStmts (fuel : Nat) : List (Stmt String Binder) → Exec h (Flow h.V)
  | [] => return .normal
  | s :: ss => do
    match ← execStmt fuel s with
    | .normal => execStmts fuel ss
    | flow => return flow

end

/-- `global_env`. -/
def globalEnv (h : Host) : IndexMap String (Binding h.V) :=
  .ofPairs (Globals.builtinNames.map fun x => (x, ⟨h.builtin x, false⟩))

def programResult : Except h.E (Flow h.V) → Except h.E Unit
  | .ok .normal | .ok (.return _) => .ok ()
  | .ok .break => .error (h.panic "'break' outside of a loop")
  | .ok .continue => .error (h.panic "'continue' outside of a loop")
  | .error e => .error e

/-- `exec_program` in a module of its own. -/
def execProgram (fuel : Nat) (p : Program) (w : h.W) : Option (Except h.E Unit × h.W) :=
  (execStmts fuel p ⟨[.empty, globalEnv h], w⟩).map fun (r, s) => (programResult r, s.world)

end AScript.Compile
