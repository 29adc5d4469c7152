import AScript.Compile.Engine

namespace AScript.Compile

open AScript.Syntax AScript.Bytecode

def OpAt (c : Chunk) (op : Op) (p q : Nat) : Prop :=
  (c.code[p]?).bind Op.fromU8 = some op ∧ q = p + 1 + op.operandWidth

def OpU16 (c : Chunk) (op : Op) (operand p q : Nat) : Prop :=
  OpAt c op p q ∧ c.readU16 (p + 1) = operand

def OpU8 (c : Chunk) (op : Op) (operand p q : Nat) : Prop :=
  OpAt c op p q ∧ c.readU8 (p + 1) = operand

def OpConst (c : Chunk) (op : Op) (l : Literal) (p q : Nat) : Prop :=
  OpAt c op p q ∧ c.consts[c.readU16 (p + 1)]? = some l.const

def JumpsTo (c : Chunk) (site target : Nat) : Prop :=
  ((site + 2 : Nat) : Int) + c.readI16 site = target

theorem JumpsTo.jumpTarget {c : Chunk} (h : JumpsTo c site target) :
    c.jumpTarget site = target := by
  rw [JumpsTo] at h
  simp only [Chunk.jumpTarget, h]
  rw [if_neg (by omega)]
  omega

def OpJump (c : Chunk) (op : Op) (target p q : Nat) : Prop :=
  OpAt c op p q ∧ JumpsTo c (p + 1) target

def NameCode (c : Chunk) (x : NameUse) (p q : Nat) : Prop :=
  match x.resolution with
  | .local slot => OpU16 c .getLocal slot p q
  | .global => OpConst c .getGlobal (.str x.text) p q

def StoreCode (c : Chunk) (x : NameUse) (p q : Nat) : Prop :=
  match x.resolution with
  | .local slot =>
    if x.immutable then OpConst c .immutableError (.str x.text) p q
    else ∃ m, OpAt c .dup p m ∧ OpU16 c .setLocal slot m q
  | .global => OpConst c .setGlobal (.str x.text) p q

abbrev ChainCode := Option Nat → Nat → Nat → Prop

def LinkCode (needsSink : Bool) (plain : Nat → Nat → Prop) (link : Nat → Nat → Nat → Prop) :
    ChainCode
  | some t, p, q => link t p q
  | none, p, q => if needsSink then link q p q else plain p q

def ThenCode (obj : ChainCode) (rest : Nat → Nat → Prop) (needsSink : Bool) : ChainCode :=
  LinkCode needsSink (fun p q => ∃ m, obj none p m ∧ rest m q)
    (fun t p q => ∃ m, obj (some t) p m ∧ rest m q)

def MemberCode (c : Chunk) (obj : ChainCode) (needsSink : Bool) (name : String) : ChainCode :=
  ThenCode obj (OpConst c .getProp (.str name)) needsSink

def IndexCode (c : Chunk) (base idx : ChainCode) (needsSink : Bool) : ChainCode :=
  ThenCode base (fun p q => ∃ m, idx none p m ∧ OpAt c .getIndex m q) needsSink

def CallCode (c : Chunk) (callee : ChainCode) (args : Nat → Nat → Prop) (argc : Nat)
    (needsSink : Bool) : ChainCode :=
  ThenCode callee (fun p q => ∃ m, args p m ∧ OpU8 c .call argc m q) needsSink

def GuardCode (c : Chunk) (t p q : Nat) : Prop :=
  ∃ m m', OpAt c .dup p m ∧ OpJump c .jumpIfNotNil q m m' ∧ OpJump c .jump t m' q

def OptMemberCode (c : Chunk) (obj : ChainCode) (needsSink : Bool) (name : String) : ChainCode :=
  LinkCode needsSink
    (fun p q => ∃ m, obj none p m ∧ OpConst c .getPropOpt (.str name) m q)
    (fun t p q => ∃ m m', obj (some t) p m ∧ GuardCode c t m m' ∧
      OpConst c .getProp (.str name) m' q)

def ValueCode (c : Chunk) (op : AssignOp) (target value : Nat → Nat → Prop) (p q : Nat) : Prop :=
  match op.binop with
  | none => value p q
  | some b => ∃ m m' o, target p m ∧ value m m' ∧ binaryOp b = some o ∧ OpAt c o m' q

mutual

def Code (c : Chunk) : Expr NameUse → ChainCode
  | .literal l, _, p, q => OpConst c .const l p q
  | .nameRef x, _, p, q => NameCode c x p q
  | .paren e, _, p, q => Code c e none p q
  | .unary op e, _, p, q => ∃ m, Code c e none p m ∧ OpAt c (unaryOp op) m q
  | .binary op l r, _, p, q =>
    match shortCircuitOp op with
    | some jop =>
      ∃ m₁ m₂ m₃ m₄, Code c l none p m₁ ∧ OpAt c .dup m₁ m₂ ∧ OpJump c jop q m₂ m₃ ∧
        OpAt c .pop m₃ m₄ ∧ Code c r none m₄ q
    | none =>
      match if op = .instanceOf then r.reservedTypeName (·.text) else none with
      | some ty => ∃ m, Code c l none p m ∧ OpConst c .instanceOfType (.str ty) m q
      | none =>
        ∃ m m' o, Code c l none p m ∧ Code c r none m m' ∧ binaryOp op = some o ∧ OpAt c o m' q
  | .ternary cond t e, _, p, q =>
    ∃ m₁ m₂ m₃ m₄, Code c cond none p m₁ ∧ OpJump c .jumpIfFalse m₄ m₁ m₂ ∧ Code c t none m₂ m₃ ∧
      OpJump c .jump q m₃ m₄ ∧ Code c e none m₄ q
  | .assignName op x v, _, p, q =>
    ∃ m, ValueCode c op (NameCode c x) (Code c v none) p m ∧ StoreCode c x m q
  | .assignMember op obj field v, _, p, q =>
    ∃ m₁ m₂ m₃, ValueCode c op
        (MemberCode c (Code c obj) (Expr.member obj field).chainNeedsSink field none)
        (Code c v none) p m₁ ∧
      Code c obj none m₁ m₂ ∧ OpAt c .swap m₂ m₃ ∧ OpConst c .setProp (.str field) m₃ q
  | .assignIndex op obj idx v, _, p, q =>
    ∃ m₁ m₂ m₃ m₄, ValueCode c op
        (IndexCode c (Code c obj) (Code c idx) (Expr.index obj idx).chainNeedsSink none)
        (Code c v none) p m₁ ∧
      Code c obj none m₁ m₂ ∧ Code c idx none m₂ m₃ ∧ OpAt c .rot3 m₃ m₄ ∧ OpAt c .setIndex m₄ q
  | .array es, _, p, q => ∃ m, ItemsCode c es p m ∧ OpU16 c .newArray es.length m q
  | .index base idx, sink, p, q =>
    IndexCode c (Code c base) (Code c idx) (Expr.index base idx).chainNeedsSink sink p q
  | .member obj name, sink, p, q =>
    MemberCode c (Code c obj) (Expr.member obj name).chainNeedsSink name sink p q
  | .optMember obj name, sink, p, q =>
    OptMemberCode c (Code c obj) (Expr.optMember obj name).chainNeedsSink name sink p q
  | .call callee args, sink, p, q =>
    CallCode c (Code c callee) (ItemsCode c args) args.length
      (Expr.call callee args).chainNeedsSink sink p q

def ItemsCode (c : Chunk) : List (Expr NameUse) → Nat → Nat → Prop
  | [], p, q => p = q
  | e :: es, p, q => ∃ m, Code c e none p m ∧ ItemsCode c es m q

end

/-- Where a `break` and a `continue` go. -/
abbrev LoopEnds := Option (Nat × Nat)

def OptionalCode (c : Chunk) (e : Option (Expr NameUse)) (p q : Nat) : Prop :=
  match e with
  | some e => Code c e none p q
  | none => OpAt c .nil p q

def LetCode (c : Chunk) (d : Decl) (init : Option (Expr NameUse)) (p q : Nat) : Prop :=
  ∃ m, OptionalCode c init p m ∧
    match d.slot with
    | some slot => OpU16 c .setLocal slot m q
    | none => OpConst c .defineGlobal (.str d.name) m q ∧
      (c.readU8 (m + 3) ≠ 0 ↔ d.mutable = true)

def ReturnCode (c : Chunk) (e : Option (Expr NameUse)) (p q : Nat) : Prop :=
  ∃ m, OptionalCode c e p m ∧ OpAt c .«return» m q

mutual

def StmtCode (c : Chunk) (ends : LoopEnds) : Stmt NameUse Decl → Nat → Nat → Prop
  | .expr e, p, q => ∃ m, Code c e none p m ∧ OpAt c .pop m q
  | .letStmt d init, p, q => LetCode c d init p q
  | .block b, p, q => BlockCode c ends b p q
  | .ifThen cond t, p, q =>
    ∃ m₁ m₂ m₃, Code c cond none p m₁ ∧ OpJump c .jumpIfFalse q m₁ m₂ ∧ BlockCode c ends t m₂ m₃ ∧
      OpJump c .jump q m₃ q
  | .ifElse cond t e, p, q =>
    ∃ m₁ m₂ m₃ m₄, Code c cond none p m₁ ∧ OpJump c .jumpIfFalse m₄ m₁ m₂ ∧
      BlockCode c ends t m₂ m₃ ∧ OpJump c .jump q m₃ m₄ ∧ BlockCode c ends e m₄ q
  | .elseIf cond t e, p, q =>
    ∃ m₁ m₂ m₃ m₄, Code c cond none p m₁ ∧ OpJump c .jumpIfFalse m₄ m₁ m₂ ∧
      BlockCode c ends t m₂ m₃ ∧ OpJump c .jump q m₃ m₄ ∧ StmtCode c ends e m₄ q
  | .whileLoop cond b, p, q =>
    ∃ m₁ m₂ m₃, Code c cond none p m₁ ∧ OpJump c .jumpIfFalse q m₁ m₂ ∧
      BlockCode c (some (q, p)) b m₂ m₃ ∧ OpJump c .loop p m₃ q
  | .breakStmt, p, q => ∃ b k, ends = some (b, k) ∧ OpJump c .jump b p q
  | .continueStmt, p, q => ∃ b k, ends = some (b, k) ∧ OpJump c .loop k p q
  | .returnStmt e, p, q => ReturnCode c e p q

def BlockCode (c : Chunk) (ends : LoopEnds) : List (Stmt NameUse Decl) → Nat → Nat → Prop
  | [], p, q => p = q
  | s :: ss, p, q => ∃ m, StmtCode c ends s p m ∧ BlockCode c ends ss m q

end

def FileCode (c : Chunk) : List (Stmt NameUse Decl) → Nat → Nat → Prop
  | [], p, q => ∃ m, OpAt c .nil p m ∧ OpAt c .«return» m q
  | [.expr e], p, q => ∃ m, Code c e none p m ∧ OpAt c .«return» m q
  | s :: ss, p, q => ∃ m, StmtCode c none s p m ∧ FileCode c ss m q

end AScript.Compile
