import AScript.Compile.Emit

/-! From resolved programs to chunks (`compile/mod.rs`). -/

namespace AScript.Compile

open AScript.Syntax AScript.Bytecode

/-- A method call is compiled by a branch that is left out. -/
inductive CompileError
  | message (text : String)
  | limit (l : ChunkLimit)
  | methodCall

abbrev Compiled := Except CompileError (Compiler × List Nat)

def shortCircuitOp : BinOp → Option Op
  | .and => some .jumpIfFalse
  | .or => some .jumpIfTrue
  | .coalesce => some .jumpIfNotNil
  | _ => none

def binaryOp : BinOp → Option Op
  | .add => some .add
  | .sub => some .sub
  | .mul => some .mul
  | .div => some .div
  | .mod => some .mod
  | .pow => some .pow
  | .lt => some .lt
  | .le => some .le
  | .gt => some .gt
  | .ge => some .ge
  | .eq => some .eq
  | .ne => some .ne
  | .instanceOf => some .instanceOf
  | .bitAnd => some .bitAnd
  | .bitOr => some .bitOr
  | .bitXor => some .bitXor
  | .shl => some .shl
  | .shr => some .shr
  | .wrapAdd => some .wrapAdd
  | .wrapSub => some .wrapSub
  | .wrapMul => some .wrapMul
  | .and | .or | .coalesce | .range => none

def unaryOp : UnOp → Op
  | .neg => .neg
  | .not => .not
  | .bitNot => .bitNot

def unexpectedOperator : CompileError :=
  .message "internal: unexpected binary operator (compiler invariant)"

def slotTooLarge : CompileError := .message "local slot index exceeds 65535"

def tooManyArguments : CompileError := .message "too many call arguments (max 255)"

def tooManyElements : CompileError := .message "array literal has too many elements"

namespace Compiler

def emitSlot (c : Compiler) (op : Op) (slot : Nat) : Except CompileError Compiler :=
  if slot < 2 ^ 16 then .ok (c.emitU16 op slot) else .error slotTooLarge

/-- `compile_name_ref`. -/
def compileNameRef (c : Compiler) (x : NameUse) : Except CompileError Compiler :=
  match x.resolution with
  | .local slot => c.emitSlot .getLocal slot
  | .global => .ok (c.emitConst .getGlobal (.str x.text))

def storeName (c : Compiler) (x : NameUse) : Except CompileError Compiler :=
  match x.resolution with
  | .local slot =>
    if x.immutable then .ok (c.emitConst .immutableError (.str x.text))
    else (c.emit .dup).emitSlot .setLocal slot
  | .global => .ok (c.emitConst .setGlobal (.str x.text))

/-- `emit_chain_nil_guard`: a receiver that is nil leaves the chain. -/
def emitChainNilGuard (c : Compiler) (sink : List Nat) : Compiler × List Nat :=
  let (nonnil, c) := (c.emit .dup).emitJump .jumpIfNotNil
  let (toSink, c) := c.emitJump .jump
  (c.patchJump nonnil, sink ++ [toSink])

/-- One level of `compile_expr`, if there is one left (`compile_depth`). -/
def nested (body : Nat → Except CompileError α) : Nat → Except CompileError α
  | 0 => throw (.message recursionDepthExceeded)
  | left + 1 => body left

def compileWhole (body : Nat → Compiler → Except CompileError Compiler) (left : Nat)
    (sink : Option (List Nat)) (c : Compiler) : Compiled :=
  nested (fun left => return (← body left c, sink.getD [])) left

/-- `compile_expr` of a link, or `compile_chain` inside a chain that has a sink. -/
def compileLink (needsSink : Bool) (plain : Nat → Compiler → Except CompileError Compiler)
    (link : Nat → List Nat → Compiler → Compiled) (left : Nat) (sink : Option (List Nat))
    (c : Compiler) : Compiled :=
  match sink with
  | some sink => link left sink c
  | none =>
    nested (fun left =>
      if needsSink then do
        let (c, sites) ← link left [] c
        return (c.patchJumps sites, [])
      else do
        let c ← plain left c
        return (c, [])) left

def compileMember (obj : Nat → Option (List Nat) → Compiler → Compiled) (needsSink : Bool)
    (name : String) : Nat → Option (List Nat) → Compiler → Compiled :=
  compileLink needsSink
    (fun left c => do
      let (c, _) ← obj left none c
      return c.emitConst .getProp (.str name))
    (fun left sink c => do
      let (c, sink) ← obj left (some sink) c
      return (c.emitConst .getProp (.str name), sink))

def compileOptMember (obj : Nat → Option (List Nat) → Compiler → Compiled) (needsSink : Bool)
    (name : String) : Nat → Option (List Nat) → Compiler → Compiled :=
  compileLink needsSink
    (fun left c => do
      let (c, _) ← obj left none c
      return c.emitConst .getPropOpt (.str name))
    (fun left sink c => do
      let (c, sink) ← obj left (some sink) c
      let (c, sink) := c.emitChainNilGuard sink
      return (c.emitConst .getProp (.str name), sink))

def compileIndex (base idx : Nat → Option (List Nat) → Compiler → Compiled) (needsSink : Bool) :
    Nat → Option (List Nat) → Compiler → Compiled :=
  compileLink needsSink
    (fun left c => do
      let (c, _) ← base left none c
      let (c, _) ← idx left none c
      return c.emit .getIndex)
    (fun left sink c => do
      let (c, sink) ← base left (some sink) c
      let (c, _) ← idx left none c
      return (c.emit .getIndex, sink))

def compileCall (callee : Nat → Option (List Nat) → Compiler → Compiled)
    (args : Nat → Compiler → Except CompileError (Compiler × Nat)) (needsSink : Bool) :
    Nat → Option (List Nat) → Compiler → Compiled :=
  compileLink needsSink
    (fun left c => do
      let (c, _) ← callee left none c
      let (c, argc) ← args left c
      return c.emitU8 .call argc)
    (fun left sink c => do
      let (c, sink) ← callee left (some sink) c
      let (c, argc) ← args left c
      return (c.emitU8 .call argc, sink))

def compileValue (op : AssignOp) (target value : Compiler → Compiled) (c : Compiler) :
    Except CompileError Compiler :=
  match op.binop with
  | none => do
    let (c, _) ← value c
    return c
  | some b => do
    let (c, _) ← target c
    let (c, _) ← value c
    match binaryOp b with
    | some o => return c.emit o
    | none => throw unexpectedOperator

end Compiler

open Compiler

mutual

/-- `compile_expr`, and with a sink `compile_chain`, with so many levels of `compile_expr` left. -/
def compileExpr : Expr NameUse → Nat → Option (List Nat) → Compiler → Compiled
  | .literal l => compileWhole fun _ c => return c.emitConst .const l
  | .nameRef x => compileWhole fun _ c => c.compileNameRef x
  | .paren e => compileWhole fun left c => do
    let (c, _) ← compileExpr e left none c
    return c
  | .unary op e => compileWhole fun left c => do
    let (c, _) ← compileExpr e left none c
    return c.emit (unaryOp op)
  | .binary op l r => compileWhole fun left c =>
    match shortCircuitOp op with
    | some jop => do
      let (c, _) ← compileExpr l left none c
      let (skip, c) := (c.emit .dup).emitJump jop
      let (c, _) ← compileExpr r left none (c.emit .pop)
      return c.patchJump skip
    | none =>
      match if op = .instanceOf then r.reservedTypeName (·.text) else none with
      | some ty => do
        let (c, _) ← compileExpr l left none c
        return c.emitConst .instanceOfType (.str ty)
      | none => do
        let (c, _) ← compileExpr l left none c
        let (c, _) ← compileExpr r left none c
        match binaryOp op with
        | some o => return c.emit o
        | none => throw unexpectedOperator
  | .ternary cond t e => compileWhole fun left c => do
    let (c, _) ← compileExpr cond left none c
    let (jf, c) := c.emitJump .jumpIfFalse
    let (c, _) ← compileExpr t left none c
    let (je, c) := c.emitJump .jump
    let (c, _) ← compileExpr e left none (c.patchJump jf)
    return c.patchJump je
  | .assignName op x v => compileWhole fun left c => do
    let target := compileWhole fun _ c => c.compileNameRef x
    let c ← compileValue op (target left none) (compileExpr v left none) c
    c.storeName x
  | .assignMember op obj field v => compileWhole fun left c => do
    let target := compileMember (compileExpr obj) (Expr.member obj field).chainNeedsSink field
    let c ← compileValue op (target left none) (compileExpr v left none) c
    let (c, _) ← compileExpr obj left none c
    return (c.emit .swap).emitConst .setProp (.str field)
  | .assignIndex op obj idx v => compileWhole fun left c => do
    let target := compileIndex (compileExpr obj) (compileExpr idx)
      (Expr.index obj idx).chainNeedsSink
    let c ← compileValue op (target left none) (compileExpr v left none) c
    let (c, _) ← compileExpr obj left none c
    let (c, _) ← compileExpr idx left none c
    return (c.emit .rot3).emit .setIndex
  | .array es => compileWhole fun left c => do
    let (c, n) ← compileItems (2 ^ 16) tooManyElements es left 0 c
    return c.emitU16 .newArray n
  | .index base idx =>
    compileIndex (compileExpr base) (compileExpr idx) (Expr.index base idx).chainNeedsSink
  | .member obj name =>
    compileMember (compileExpr obj) (Expr.member obj name).chainNeedsSink name
  | .optMember obj name =>
    compileOptMember (compileExpr obj) (Expr.optMember obj name).chainNeedsSink name
  | .call callee args =>
    if callee.isMember then fun _ _ _ => throw .methodCall
    else
      compileCall (compileExpr callee)
        (fun left => compileItems (2 ^ 8) tooManyArguments args left 0)
        (Expr.call callee args).chainNeedsSink

def compileItems (limit : Nat) (error : CompileError) :
    List (Expr NameUse) → Nat → Nat → Compiler → Except CompileError (Compiler × Nat)
  | [], _, n, c => return (c, n)
  | e :: es, left, n, c => do
    let (c, _) ← compileExpr e left none c
    if n + 1 < limit then compileItems limit error es left (n + 1) c else throw error

end

namespace Compiler

def compileOptional (e : Option (Expr NameUse)) (c : Compiler) : Except CompileError Compiler :=
  match e with
  | some e => do
    let (c, _) ← compileExpr e exprNestLimit none c
    return c
  | none => .ok (c.emit .nil)

/-- `compile_let` for a single name. -/
def compileLet (d : Decl) (init : Option (Expr NameUse)) (c : Compiler) :
    Except CompileError Compiler := do
  let c ← compileOptional init c
  match d.slot with
  | some slot => c.emitSlot .setLocal slot
  | none =>
    let (i, c) := c.addConst (.str d.name)
    return c.emitU16U8 .defineGlobal i d.mutable.toNat

def pushLoop (c : Compiler) (continueTarget : Nat) : Compiler :=
  { c with loops := ⟨continueTarget, []⟩ :: c.loops }

def popLoop (c : Compiler) : Compiler := { c with loops := c.loops.tail }

def breakSites (c : Compiler) : List Nat := (c.loops.head?.map LoopCtx.breakSites).getD []

def addBreakSite (c : Compiler) (site : Nat) : Compiler :=
  { c with loops := c.loops.modifyHead fun l => { l with breakSites := l.breakSites ++ [site] } }

def compileBreak (c : Compiler) : Except CompileError Compiler :=
  let (site, c) := c.emitJump .jump
  match c.loops with
  | [] => .error (.message "'break' outside of a loop")
  | _ :: _ => .ok (c.addBreakSite site)

def compileContinue (c : Compiler) : Except CompileError Compiler :=
  match c.loops with
  | [] => .error (.message "'continue' outside of a loop")
  | l :: _ => .ok (c.emitLoop l.continueTarget)

def compileReturn (e : Option (Expr NameUse)) (c : Compiler) :
    Except CompileError Compiler := do
  let c ← compileOptional e c
  return c.emit .«return»

end Compiler

mutual

def compileStmt : Stmt NameUse Decl → Compiler → Except CompileError Compiler
  | .expr e, c => do
    let (c, _) ← compileExpr e exprNestLimit none c
    return c.emit .pop
  | .letStmt d init, c => compileLet d init c
  | .block b, c => compileBlock b c
  | .ifThen cond t, c => do
    let (c, _) ← compileExpr cond exprNestLimit none c
    let (jf, c) := c.emitJump .jumpIfFalse
    let c ← compileBlock t c
    let (je, c) := c.emitJump .jump
    return (c.patchJump jf).patchJump je
  | .ifElse cond t e, c => do
    let (c, _) ← compileExpr cond exprNestLimit none c
    let (jf, c) := c.emitJump .jumpIfFalse
    let c ← compileBlock t c
    let (je, c) := c.emitJump .jump
    let c ← compileBlock e (c.patchJump jf)
    return c.patchJump je
  | .elseIf cond t e, c => do
    let (c, _) ← compileExpr cond exprNestLimit none c
    let (jf, c) := c.emitJump .jumpIfFalse
    let c ← compileBlock t c
    let (je, c) := c.emitJump .jump
    let c ← compileStmt e (c.patchJump jf)
    return c.patchJump je
  | .whileLoop cond b, c => do
    let condStart := c.pos
    let (c, _) ← compileExpr cond exprNestLimit none c
    let (exit, c) := c.emitJump .jumpIfFalse
    let c ← compileBlock b (c.pushLoop condStart)
    let c := c.emitLoop condStart
    return (c.popLoop.patchJump exit).patchJumps c.breakSites
  | .breakStmt, c => compileBreak c
  | .continueStmt, c => compileContinue c
  | .returnStmt e, c => compileReturn e c

def compileBlock : List (Stmt NameUse Decl) → Compiler → Except CompileError Compiler
  | [], c => .ok c
  | s :: ss, c => do
    let c ← compileStmt s c
    compileBlock ss c

end

def compileFile : List (Stmt NameUse Decl) → Compiler → Except CompileError Compiler
  | [], c => .ok ((c.emit .nil).emit .«return»)
  | [.expr e], c => do
    let (c, _) ← compileExpr e exprNestLimit none c
    return c.emit .«return»
  | s :: ss, c => do
    let c ← compileStmt s c
    compileFile ss c

/-- `compile_source`, without a keep set and without elision. -/
def compileSource (p : Program) : Except CompileError Chunk := do
  let (p, slotCount) := resolve p
  if 2 ^ 16 ≤ slotCount then
    throw (.message "too many local slots in top-level frame (max 65535)")
  let c ← compileFile p ⟨[], [], none, []⟩
  match c.overflow with
  | some limit => throw (.limit limit)
  | none => return { Chunk.new with
      code := c.code, consts := c.consts.map Literal.const, slotCount := .ofNat slotCount }

/-- `let i = 0; while (i < 3) { const j = i + 1; i = j }` -/
def countTo : Program :=
  [.letStmt ⟨"i", true⟩ (some (.literal (.int (.sat 0)))),
    .whileLoop (.binary .lt (.nameRef "i") (.literal (.int (.sat 3))))
      [.letStmt ⟨"j", false⟩ (some (.binary .add (.nameRef "i") (.literal (.int (.sat 1))))),
        .expr (.assignName .eq "i" (.nameRef "j"))]]

def countToChunk : Chunk := { Chunk.new with
  code := [0, 0, 0, 14, 1, 0, 1, 13, 1, 0, 0, 2, 0, 27, 38, 20, 0, 13, 1, 0, 0, 3, 0, 17, 9, 0, 0,
    8, 0, 0, 15, 1, 0, 4, 41, 226, 255, 1, 47]
  consts := [.int (.sat 0), .str "i", .int (.sat 3), .int (.sat 1)]
  slotCount := 1 }

theorem compileSource_countTo : compileSource countTo = .ok countToChunk := rfl

end AScript.Compile
