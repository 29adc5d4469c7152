import AScript.Lib.Float64

/-! The part of `ast.rs` that reaches bytecode and the runtime contracts. -/

namespace AScript.Syntax

open AScript.Lib

structure Span where
  start : UInt64
  stop : UInt64
  deriving DecidableEq

/-- `ast::Type`. -/
inductive Ty
  | number
  | int
  | float
  | string
  | bool
  | nil
  | any
  | fn
  | object
  | error
  | array : Ty → Ty
  | result : Ty → Ty
  | tuple : List Ty → Ty
  | union : Ty → Ty → Ty
  | named : String → Ty
  | map : Ty → Ty → Ty
  | future : Ty → Ty
  | optional : Ty → Ty
  | param : String → Ty
  | fnSig : List Ty → Ty → Ty

inductive UnOp
  | neg
  | not
  | bitNot
  deriving DecidableEq

inductive BinOp
  | add
  | sub
  | mul
  | div
  | mod
  | pow
  | lt
  | le
  | gt
  | ge
  | eq
  | ne
  | and
  | or
  | coalesce
  | range
  | instanceOf
  | bitAnd
  | bitOr
  | bitXor
  | shl
  | shr
  | wrapAdd
  | wrapSub
  | wrapMul
  deriving DecidableEq

mutual

/-- `ast::Expr`. -/
inductive Expr
  | mk : ExprKind → Span → Expr

/-- `ast::ExprKind`. Nothing looks inside an arrow, a match or a yield here, so their
trees are names only. -/
inductive ExprKind
  | int : I64 → ExprKind
  | float : F64 → ExprKind
  | str : String → ExprKind
  | bool : Bool → ExprKind
  | nil
  | ident : String → ExprKind
  | unary : UnOp → Expr → ExprKind
  | binary : BinOp → Expr → Expr → ExprKind
  | call : Expr → List CallArg → (elideArgs : Bool) → ExprKind
  | assign : Expr → Expr → ExprKind
  | arrow : Nat → ExprKind
  | array : List ArrayElem → ExprKind
  | index : Expr → Expr → ExprKind
  | object : List ObjEntry → ExprKind
  | map : List MapEntry → ExprKind
  | member : Expr → String → ExprKind
  | optMember : Expr → String → ExprKind
  | «try» : Expr → ExprKind
  | unwrap : Expr → ExprKind
  | ternary : Expr → Expr → Expr → ExprKind
  | template : List TemplatePart → ExprKind
  | «match» : Nat → ExprKind
  | await : Expr → ExprKind
  | yield : Nat → ExprKind
  | paren : Expr → ExprKind
  | range : Expr → Expr → (inclusive : Bool) → (step : Option Expr) → ExprKind

inductive ArrayElem
  | item : Expr → ArrayElem
  | spread : Expr → ArrayElem

inductive ObjEntry
  | kv : String → Expr → ObjEntry
  | spread : Expr → ObjEntry

inductive MapEntry
  | mk : (key : Expr) → (value : Expr) → MapEntry

inductive CallArg
  | pos : Expr → CallArg
  | spread : Expr → CallArg
  | named : String → Expr → CallArg

inductive TemplatePart
  | lit : String → TemplatePart
  | expr : Expr → TemplatePart

end

structure Param where
  name : String
  ty : Option Ty
  nameSpan : Span
  rest : Bool
  default : Option Expr

end AScript.Syntax
