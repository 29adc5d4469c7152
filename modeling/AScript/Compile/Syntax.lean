import AScript.Bytecode.Chunk

namespace AScript.Compile

open AScript.Lib AScript.Syntax AScript.Bytecode

inductive Literal
  | nil
  | bool (b : Bool)
  | int (i : I64)
  | float (f : F64)
  | str (s : String)
  deriving DecidableEq

def Literal.const : Literal → Const
  | nil => .nil
  | bool b => .bool b
  | int i => .int i
  | float f => .float f
  | str s => .str s

inductive AssignOp
  | eq
  | plusEq
  | minusEq
  | starEq
  | slashEq
  deriving DecidableEq

def AssignOp.binop : AssignOp → Option BinOp
  | eq => none
  | plusEq => some .add
  | minusEq => some .sub
  | starEq => some .mul
  | slashEq => some .div

inductive Expr (U : Type)
  | literal (l : Literal)
  | nameRef (x : U)
  | paren (e : Expr U)
  | unary (op : UnOp) (e : Expr U)
  | binary (op : BinOp) (lhs rhs : Expr U)
  | ternary (cond thn els : Expr U)
  | assignName (op : AssignOp) (x : U) (value : Expr U)
  | assignMember (op : AssignOp) (obj : Expr U) (field : String) (value : Expr U)
  | assignIndex (op : AssignOp) (obj idx value : Expr U)
  | array (items : List (Expr U))
  | index (base idx : Expr U)
  | member (obj : Expr U) (name : String)
  | optMember (obj : Expr U) (name : String)
  | call (callee : Expr U) (args : List (Expr U))

/-- An `else` is a block or another `if`. -/
inductive Stmt (U D : Type)
  | expr (e : Expr U)
  | letStmt (d : D) (init : Option (Expr U))
  | block (body : List (Stmt U D))
  | ifThen (cond : Expr U) (thn : List (Stmt U D))
  | ifElse (cond : Expr U) (thn els : List (Stmt U D))
  | elseIf (cond : Expr U) (thn : List (Stmt U D)) (els : Stmt U D)
  | whileLoop (cond : Expr U) (body : List (Stmt U D))
  | breakStmt
  | continueStmt
  | returnStmt (e : Option (Expr U))

/-- What a `let` or a `const` declares. -/
structure Binder where
  name : String
  mutable : Bool
  deriving DecidableEq

/-- A program as it is written. -/
abbrev Program := List (Stmt String Binder)

/-- The names after `instanceof` that are types (`is_reserved_instanceof_type_name`). -/
def isReservedInstanceofTypeName (name : String) : Bool :=
  name ∈ ["int", "float", "number", "string", "bool"]

namespace Expr

variable {U : Type}

/-- The right side of an `instanceof`, if it names a type. -/
def reservedTypeName (text : U → String) : Expr U → Option String
  | nameRef x => if isReservedInstanceofTypeName (text x) then some (text x) else none
  | _ => none

def isMember : Expr U → Bool
  | member .. | optMember .. => true
  | _ => false

/-- The walk of `chain_needs_sink` below the outermost link: the spine has an optional one. -/
def hasOptional : Expr U → Bool
  | optMember .. => true
  | member obj _ => obj.hasOptional
  | index base _ => base.hasOptional
  | call callee _ => callee.hasOptional
  | _ => false

/-- `chain_needs_sink`: an optional link cuts more of the chain than itself. -/
def chainNeedsSink : Expr U → Bool
  | optMember obj _ => obj.hasOptional
  | e => e.hasOptional

end Expr

/-- How deep expressions may nest (`EXPR_NEST_LIMIT`, except on wasm). -/
def exprNestLimit : Nat := 3000

def recursionDepthExceeded : String := "maximum recursion depth exceeded"

def AssignOp.levels (op : AssignOp) (target value : Nat) : Nat :=
  match op.binop with
  | none => value
  | some _ => max target value + 1

def Expr.isLink : Expr U → Bool
  | .index .. | .member .. | .optMember .. | .call .. => true
  | _ => false

def Expr.alone (e : Expr U) (levels : Nat) : Nat := if e.isLink then levels + 1 else levels

mutual

/-- The levels of `eval_expr` below a link. -/
def Expr.chainLevels : Expr U → Nat
  | .literal _ | .nameRef _ => 1
  | .paren e | .unary _ e => e.alone e.chainLevels + 1
  | .binary _ l r => max (l.alone l.chainLevels) (r.alone r.chainLevels) + 1
  | .ternary c t e =>
    max (c.alone c.chainLevels) (max (t.alone t.chainLevels) (e.alone e.chainLevels)) + 1
  | .assignName op _ v => op.levels 1 (v.alone v.chainLevels) + 1
  | .assignMember op o _ v =>
    max (op.levels (o.chainLevels + 1) (v.alone v.chainLevels)) (o.alone o.chainLevels) + 1
  | .assignIndex op o i v =>
    max (op.levels (max o.chainLevels (i.alone i.chainLevels) + 1) (v.alone v.chainLevels))
      (max (o.alone o.chainLevels) (i.alone i.chainLevels)) + 1
  | .array es => levelsAll es + 1
  | .index b i => max b.chainLevels (i.alone i.chainLevels)
  | .member o _ | .optMember o _ => o.chainLevels
  | .call f es => max f.chainLevels (levelsAll es)

def levelsAll : List (Expr U) → Nat
  | [] => 0
  | e :: es => max (e.alone e.chainLevels) (levelsAll es)

end

def Expr.levels (e : Expr U) : Nat := e.alone e.chainLevels

mutual

def Expr.assigned : Expr U → List U
  | .literal _ | .nameRef _ => []
  | .paren e | .unary _ e | .member e _ | .optMember e _ => e.assigned
  | .binary _ l r | .index l r => l.assigned ++ r.assigned
  | .ternary c t e => c.assigned ++ t.assigned ++ e.assigned
  | .assignName _ x v => x :: v.assigned
  | .assignMember _ o _ v => o.assigned ++ v.assigned
  | .assignIndex _ o i v => o.assigned ++ i.assigned ++ v.assigned
  | .array es => assignedAll es
  | .call f es => f.assigned ++ assignedAll es

def assignedAll : List (Expr U) → List U
  | [] => []
  | e :: es => e.assigned ++ assignedAll es

end

namespace Stmt

variable {U D : Type}

mutual

def assigned : Stmt U D → List U
  | expr e => e.assigned
  | letStmt _ init | returnStmt init => init.elim [] Expr.assigned
  | block b => assignedIn b
  | ifThen c t => c.assigned ++ assignedIn t
  | ifElse c t e => c.assigned ++ assignedIn t ++ assignedIn e
  | elseIf c t e => c.assigned ++ assignedIn t ++ e.assigned
  | whileLoop c b => c.assigned ++ assignedIn b
  | breakStmt | continueStmt => []

def assignedIn : List (Stmt U D) → List U
  | [] => []
  | s :: ss => s.assigned ++ assignedIn ss

end

mutual

def exprs : Stmt U D → List (Expr U)
  | expr e => [e]
  | letStmt _ init | returnStmt init => init.toList
  | block b => exprsIn b
  | ifThen c t | whileLoop c t => c :: exprsIn t
  | ifElse c t e => c :: exprsIn t ++ exprsIn e
  | elseIf c t e => c :: exprsIn t ++ e.exprs
  | breakStmt | continueStmt => []

def exprsIn : List (Stmt U D) → List (Expr U)
  | [] => []
  | s :: ss => s.exprs ++ exprsIn ss

end

def declares : Stmt U Binder → Option String
  | letStmt d _ => some d.name
  | _ => none

mutual

/-- No block in it declares a name twice, and no `else` is a declaration. -/
def Distinct : Stmt U Binder → Prop
  | block b => DistinctBlock b
  | ifThen _ t => DistinctBlock t
  | ifElse _ t e => DistinctBlock t ∧ DistinctBlock e
  | elseIf _ t e => DistinctBlock t ∧ e.declares = none ∧ e.Distinct
  | whileLoop _ b => DistinctBlock b
  | _ => True

def DistinctBlock : List (Stmt U Binder) → Prop
  | [] => True
  | s :: ss => s.Distinct ∧ (∀ x ∈ s.declares, x ∉ ss.filterMap declares) ∧ DistinctBlock ss

end

end Stmt
end AScript.Compile
