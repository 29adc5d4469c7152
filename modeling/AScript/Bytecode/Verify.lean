import AScript.Bytecode.Chunk
import AScript.Lib.Checked
import AScript.Lib.Worklist
import Mathlib.Data.Fintype.Basic

/-! The load-time verifier (`vm/verify.rs`). -/

namespace AScript.Bytecode

open AScript.Lib

inductive VerifyError
  | badOpcode (offset : Nat) (byte : UInt8)
  | operandTruncated (offset : Nat)
  | operandOutOfRange (offset : Nat) (kind : String) (index len : Nat)
  | nameConstNotString (offset index : Nat)
  | jumpOutOfBounds (offset : Nat) (target : Int) (codeLen : Nat)
  | jumpIntoInstruction (offset target : Nat)
  | stackUnderflow (offset : Nat)
  | stackJoinMismatch (offset expected found : Nat)
  | fallsOffEnd (offset : Nat)
  | badInterface (offset : Nat) (what : String)
  | breakInSerializedCode (offset : Nat)
  | badDeferFlags (offset flags : Nat)
  deriving DecidableEq

/-- A decoded instruction: its offset, opcode and first operand byte. -/
structure Instr where
  off : Nat
  op : Op
  operandAt : Nat
  deriving DecidableEq

namespace Chunk

def decodeFrom (c : Chunk) : Nat → Nat → Except VerifyError (List Instr)
  | 0, _ => .ok []
  | fuel + 1, off =>
    match c.code[off]? with
    | none => .ok []
    | some byte =>
      match Op.fromU8 byte with
      | none => .error (.badOpcode off byte)
      | some op =>
        if op = .«break» then .error (.breakInSerializedCode off)
        else if off + 1 + op.operandWidth > c.code.length then .error (.operandTruncated off)
        else do
          let rest ← c.decodeFrom fuel (off + 1 + op.operandWidth)
          return ⟨off, op, off + 1⟩ :: rest

def instrs (c : Chunk) : Except VerifyError (List Instr) := c.decodeFrom c.code.length 0

def isBoundary (c : Chunk) (is : List Instr) (t : Nat) : Bool :=
  t = c.code.length || is.any fun i => i.off = t

def inRange (off : Nat) (kind : String) (index len : Nat) : Except VerifyError Unit :=
  if index < len then .ok () else .error (.operandOutOfRange off kind index len)

def checkConst (c : Chunk) (off idx : Nat) : Except VerifyError Unit :=
  inRange off "const" idx c.consts.length

def checkNameConst (c : Chunk) (off idx : Nat) : Except VerifyError Unit := do
  c.checkConst off idx
  if (c.consts[idx]?).any Const.isStr then return ()
  else throw (.nameConstNotString off idx)

def checkMethods (off : Nat) : List String → List (String × UInt64 × Bool) → Except VerifyError Unit
  | _, [] => .ok ()
  | seen, (mname, _) :: ms =>
    if mname = "" then
      .error (.badInterface off "an interface method requirement has an empty name")
    else if mname ∈ seen then
      .error (.badInterface off "an interface declares a duplicate method requirement")
    else checkMethods off (mname :: seen) ms

def checkInterface (c : Chunk) (off idx : Nat) : Except VerifyError Unit :=
  match c.interfaceProtos[idx]? with
  | none => .error (.operandOutOfRange off "interface_proto" idx c.interfaceProtos.length)
  | some p => checkMethods off [] p.methods

def checkJump (c : Chunk) (is : List Instr) (off operandAt : Nat) : Except VerifyError Unit :=
  let target := ((operandAt + 2 : Nat) : Int) + c.readI16 operandAt
  if target < 0 ∨ (c.code.length : Int) < target then
    .error (.jumpOutOfBounds off target c.code.length)
  else if c.isBoundary is target.toNat then .ok ()
  else .error (.jumpIntoInstruction off target.toNat)

def checkFlags (off flags : Nat) : Except VerifyError Unit :=
  if flags < 4 then .ok () else .error (.badDeferFlags off flags)

def checkOperands (c : Chunk) (is : List Instr) (paramsLen : Nat) (i : Instr) :
    Except VerifyError Unit :=
  let idx := c.readU16 i.operandAt
  match i.op with
  | .const | .matchVariant | .objectRest | .callNamed => c.checkConst i.off idx
  | .getGlobal | .defineGlobal | .setGlobal | .immutableError | .getProp | .setProp
  | .getPropOpt | .method | .getSuper | .objectKey | .matchHasKey | .callMethodSpread
  | .defineExport | .instanceOfType | .variantField | .matchVariantHasField
  | .appendNamedArg | .callMethod => c.checkNameConst i.off idx
  | .«class» => inRange i.off "class_proto" idx c.classProtos.length
  | .defineInterface => c.checkInterface i.off idx
  | .checkLocal => inRange i.off "type-const" idx c.typeConsts.length
  | .checkParam => inRange i.off "param" idx paramsLen
  | .getLocal | .setLocal | .getLocalCell | .setLocalCell | .freshCell | .closeUpvalue =>
    inRange i.off "slot" idx c.slotCount.toNat
  | .getUpvalue | .setUpvalue => inRange i.off "upvalue" idx c.upvalues.length
  | .closure => inRange i.off "proto" idx c.protos.length
  | .«import» => inRange i.off "import" idx c.imports.length
  | .jump | .jumpIfFalse | .jumpIfTrue | .jumpIfNotNil | .loop => c.checkJump is i.off i.operandAt
  | .jumpIfArgSupplied => c.checkJump is i.off (i.operandAt + 2)
  | .deferPushMethod => do
    c.checkNameConst i.off idx
    checkFlags i.off (c.readU8 (i.operandAt + 2))
  | .deferPush => checkFlags i.off (c.readU8 i.operandAt)
  | _ => .ok ()

end Chunk

structure Effect where
  pops : Nat
  pushes : Nat
  deriving DecidableEq

def stackEffect (n : Nat) : Op → Effect
  | .const | .nil | .true | .false | .getLocal | .getLocalCell | .getUpvalue | .getGlobal
  | .closure | .getSuper | .newMap | .defineInterface | .«class» => ⟨0, 1⟩
  | .pop | .setLocal | .setLocalCell | .setUpvalue | .jumpIfFalse | .jumpIfTrue
  | .jumpIfNotNil | .«return» | .yield | .defineExport | .iterClose | .defineGlobal => ⟨1, 0⟩
  | .dup => ⟨1, 2⟩
  | .swap => ⟨2, 2⟩
  | .rot3 => ⟨3, 3⟩
  | .add | .sub | .mul | .div | .mod | .pow | .lt | .le | .gt | .ge | .eq | .ne | .range
  | .rangeInclusive | .bitAnd | .bitOr | .bitXor | .shl | .shr | .wrapAdd | .wrapSub
  | .wrapMul => ⟨2, 1⟩
  | .neg | .not | .bitNot => ⟨1, 1⟩
  | .jump | .loop | .jumpIfArgSupplied => ⟨0, 0⟩
  | .checkParam | .checkLocal => ⟨1, 1⟩
  | .call | .callElided | .callMethod | .callNamed => ⟨n + 1, 1⟩
  | .callSpread | .callMethodSpread => ⟨2, 1⟩
  | .appendNamedArg | .appendPosArg | .appendSpreadArg => ⟨3, 2⟩
  | .callNamedSpread => ⟨3, 1⟩
  | .newArray | .template => ⟨n, 1⟩
  | .newObject => ⟨2 * n, 1⟩
  | .mapEntry | .appendObject | .setIndex => ⟨3, 1⟩
  | .spread | .spreadArgs | .appendArray | .spreadObject | .getIndex | .setProp => ⟨2, 1⟩
  | .getProp | .getPropOpt | .await | .propagate | .unwrap | .getIter | .iterSnapshot
  | .arrayLen => ⟨1, 1⟩
  | .iterNext => ⟨1, 2⟩
  | .«import» | .freshCell | .closeUpvalue => ⟨0, 0⟩
  | .checkNumbers => ⟨2, 2⟩
  | .rangeStepValue | .rangeHasNext => ⟨3, 1⟩
  | .rangeResolveStep => ⟨3, 3⟩
  | .checkArrayDestructure | .checkObjectDestructure | .arrayElem | .objectKey | .arrayRest
  | .objectRest | .variantElem | .variantField | .matchVariant | .matchVariantArity
  | .matchVariantHasField | .matchArray | .matchObject | .matchHasKey | .setGlobal
  | .instanceOfType => ⟨1, 1⟩
  | .matchRange => ⟨4, 1⟩
  | .method | .instanceOf => ⟨2, 1⟩
  | .matchNoArm | .immutableError | .makeGenerator | .deferPush | .deferPushMethod
  | .«break» => ⟨0, 0⟩

namespace Chunk

def countOperand (c : Chunk) (operandAt : Nat) : Op → Nat
  | .call | .callElided => c.readU8 operandAt
  | .callMethod | .callNamed => c.readU8 (operandAt + 2)
  | .newArray | .newObject | .template => c.readU16 operandAt
  | _ => 0

def classPops (p : ClassProto) : Nat :=
  p.defaultFields.length + p.methodNames.length + p.hasSuper.toNat

def deferPops (c : Chunk) (flagsAt : Nat) : Nat :=
  1 + if c.readU8 flagsAt / 2 % 2 = 1 then 1 else c.readU8 (flagsAt + 1)

def opStackPopsPushes (c : Chunk) (operandAt : Nat) : Op → Effect
  | .«class» =>
    match c.classProtos[c.readU16 operandAt]? with
    | some p => ⟨classPops p, 1⟩
    | none => ⟨0, 1⟩
  | .deferPush => ⟨c.deferPops operandAt, 0⟩
  | .deferPushMethod => ⟨c.deferPops (operandAt + 2), 0⟩
  | op => stackEffect (c.countOperand operandAt op) op

def jumpTarget (c : Chunk) (operandAt : Nat) : Nat :=
  let target := ((operandAt + 2 : Nat) : Int) + c.readI16 operandAt
  if target < 0 then (target + 2 ^ 64).toNat else target.toNat

def nextOffset (i : Instr) : Nat := i.off + 1 + i.op.operandWidth

theorem decodeFrom_succ {c : Chunk} (h : c.decodeFrom (k + 1) off = .ok is) :
    (c.code[off]? = none ∧ is = []) ∨
      ∃ op rest, (c.code[off]?).bind Op.fromU8 = some op ∧ op ≠ .«break» ∧
        off + 1 + op.operandWidth ≤ c.code.length ∧
        c.decodeFrom k (off + 1 + op.operandWidth) = .ok rest ∧
          is = ⟨off, op, off + 1⟩ :: rest := by
  rw [decodeFrom] at h
  split at h
  next hn =>
    cases h
    exact .inl ⟨hn, rfl⟩
  next byte hb =>
    split at h
    · cases h
    next op hop =>
      split at h
      · cases h
      next hbr =>
        split at h
        · cases h
        next hw =>
          obtain ⟨rest, hr, h⟩ := bind_ok.mp h
          cases h
          exact .inr ⟨op, rest, by rw [hb, Option.bind_some, hop], hbr, by omega, hr, rfl⟩

theorem decodeFrom_mem {c : Chunk} (h : c.decodeFrom k off = .ok is) (hi : i ∈ is) :
    (c.code[i.off]?).bind Op.fromU8 = some i.op ∧ i.operandAt = i.off + 1 := by
  induction k generalizing off is with
  | zero =>
    cases h
    cases hi
  | succ k ih =>
    obtain ⟨-, rfl⟩ | ⟨op, rest, hop, -, -, hr, rfl⟩ := decodeFrom_succ h
    · cases hi
    · cases hi with
      | head => exact ⟨hop, rfl⟩
      | tail _ hi => exact ih hr hi

theorem decodeFrom_head {c : Chunk} (h : c.decodeFrom k off = .ok (i :: is)) : i.off = off := by
  cases k with
  | zero => cases h
  | succ k =>
    obtain ⟨-, h⟩ | ⟨op, rest, -, -, -, -, h⟩ := decodeFrom_succ h
    · cases h
    · cases h
      rfl

section Balance

variable (c : Chunk) (is : List Instr)

def resolve (t : Nat) : Option (Fin is.length) :=
  (List.finRange is.length).find? fun i => (is.get i).off = t

def pushSucc (off target : Nat) : Except VerifyError (Fin is.length) :=
  if c.isBoundary is target then
    match resolve is target with
    | some j => .ok j
    | none => .error (.jumpOutOfBounds off target target)
  else .error (.jumpIntoInstruction off target)

def pushFallthrough (i : Instr) : Except VerifyError (Fin is.length) :=
  match resolve is (nextOffset i) with
  | some j => .ok j
  | none => .error (.fallsOffEnd i.off)

def successors (i : Instr) : Except VerifyError (List (Fin is.length)) :=
  match i.op with
  | .jump | .loop => do return [← c.pushSucc is i.off (c.jumpTarget i.operandAt)]
  | .jumpIfFalse | .jumpIfTrue | .jumpIfNotNil => do
    let t ← c.pushSucc is i.off (c.jumpTarget i.operandAt)
    return [t, ← pushFallthrough is i]
  | .jumpIfArgSupplied => do
    let t ← c.pushSucc is i.off (c.jumpTarget (i.operandAt + 2))
    return [t, ← pushFallthrough is i]
  | .«return» | .yield | .matchNoArm | .immutableError => .ok []
  | _ => do return [← pushFallthrough is i]

def visit (j : Fin is.length) (depth : Nat) : Except VerifyError (List (Fin is.length × Nat)) :=
  let i := is.get j
  let eff := c.opStackPopsPushes i.operandAt i.op
  if depth < eff.pops then .error (.stackUnderflow i.off)
  else do
    let succs ← c.successors is i
    return succs.map fun t => (t, depth - eff.pops + eff.pushes)

def flow : Flow (Fin is.length) Nat VerifyError where
  visit := c.visit is
  clash j expected found := .stackJoinMismatch (is.get j).off expected found

variable {c is}

theorem resolve_off (h : resolve is t = some j) : (is.get j).off = t := by
  simpa using List.find?_some h

theorem successors_length (h : c.successors is i = .ok succs) : succs.length ≤ 2 := by
  unfold successors at h
  split at h <;> simp only [bind_ok, pure_ok, Except.ok.injEq] at h
  case h_7 | h_8 | h_9 | h_10 =>
    subst h
    exact Nat.zero_le 2
  case h_3 | h_4 | h_5 | h_6 =>
    obtain ⟨_, -, _, -, rfl⟩ := h
    exact Nat.le_refl 2
  all_goals
    obtain ⟨_, -, rfl⟩ := h
    exact Nat.le_succ 1

theorem visit_length (h : c.visit is j d = .ok succs) : succs.length ≤ 2 := by
  simp only [visit] at h
  split at h
  · cases h
  · obtain ⟨ss, hs, h⟩ := bind_ok.mp h
    cases h
    rw [List.length_map]
    exact successors_length hs

theorem walk_terminates (j : Fin is.length) :
    ((c.flow is).walk (2 * is.length + 2) [(j, 0)] fun _ => none).isSome := by
  apply Flow.walk_isSome (b := 2) (fun _ _ _ => visit_length)
  have h := Flow.unassigned_le fun _ : Fin is.length => (none : Option Nat)
  rw [Fintype.card_fin] at h
  simp only [List.length_singleton]
  omega

variable (c is)

def depths (h : 0 < is.length) : Except VerifyError (Fin is.length → Option Nat) :=
  ((c.flow is).walk (2 * is.length + 2) [(⟨0, h⟩, 0)] fun _ => none).get (walk_terminates _)

end Balance

def isUnconditionalTerminator : Op → Bool
  | .«return» | .jump | .loop | .yield | .matchNoArm | .immutableError => true
  | _ => false

def verifyStackBalance (c : Chunk) (is : List Instr) : Except VerifyError Unit :=
  if h : 0 < is.length then do
    let entry ← c.depths is h
    let last : Fin is.length := ⟨is.length - 1, by omega⟩
    if (entry last).isSome && !isUnconditionalTerminator (is.get last).op &&
        nextOffset (is.get last) = c.code.length then
      throw (.fallsOffEnd (is.get last).off)
    else return ()
  else return ()

def verifyChunk (c : Chunk) (paramsLen : Nat) : Except VerifyError Unit :=
  if c.code.isEmpty then .ok ()
  else do
    let is ← c.instrs
    is.forM (c.checkOperands is paramsLen)
    c.verifyStackBalance is

end Chunk

mutual

def FnProto.verifyProtoChunk : FnProto → Except VerifyError Unit
  | .mk s t ps => do
    Chunk.verifyChunk ⟨t, ps⟩ s.params.length
    FnProto.verifyProtoChunks ps

def FnProto.verifyProtoChunks : List FnProto → Except VerifyError Unit
  | [] => .ok ()
  | p :: ps => do
    p.verifyProtoChunk
    FnProto.verifyProtoChunks ps

end

def Chunk.verify (c : Chunk) : Except VerifyError Unit := do
  c.verifyChunk 0
  FnProto.verifyProtoChunks c.protos

/-- A chunk with the parameters of the function it is the body of. -/
structure Body where
  chunk : Chunk
  params : List Syntax.Param

def FnProto.body (p : FnProto) : Body := ⟨p.chunk, p.signature.params⟩

/-- The bodies of a program: the entry chunk, and the functions nested in any of them. -/
inductive Body.In (root : Chunk) : Body → Prop
  | root : In root ⟨root, []⟩
  | nested : In root b → p ∈ b.chunk.protos → In root p.body

def Body.Verified (b : Body) : Prop :=
  b.chunk.verifyChunk b.params.length = .ok () ∧
    FnProto.verifyProtoChunks b.chunk.protos = .ok ()

theorem FnProto.verifyProtoChunks_mem (h : FnProto.verifyProtoChunks ps = .ok ()) (hp : p ∈ ps) :
    p.verifyProtoChunk = .ok () := by
  induction ps with
  | nil => cases hp
  | cons q ps ih =>
    rw [FnProto.verifyProtoChunks] at h
    obtain ⟨_, hq, h⟩ := bind_ok.mp h
    cases hp with
    | head => exact hq
    | tail _ hp => exact ih h hp

theorem FnProto.verifyProtoChunk_body (h : FnProto.verifyProtoChunk p = .ok ()) :
    p.body.Verified := by
  cases p with
  | mk s t ps =>
    rw [FnProto.verifyProtoChunk] at h
    obtain ⟨_, hc, h⟩ := bind_ok.mp h
    exact ⟨hc, h⟩

theorem Body.In.verified {c : Chunk} (hin : Body.In c b) (h : c.verify = .ok ()) :
    b.Verified := by
  induction hin with
  | root =>
    obtain ⟨_, hc, h⟩ := bind_ok.mp h
    exact ⟨hc, h⟩
  | nested _ hp ih => exact FnProto.verifyProtoChunk_body (FnProto.verifyProtoChunks_mem ih.2 hp)

end AScript.Bytecode
