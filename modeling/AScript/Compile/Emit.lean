import AScript.Compile.Resolve

/-! Code as it is emitted, and its jumps patched (`vm/chunk.rs`). Spans are left out. -/

namespace AScript.Bytecode

/-- `op as u8`. -/
def Op.toU8 (op : Op) : UInt8 := .ofNat op.ctorIdx

theorem Op.fromU8_toU8 (op : Op) : Op.fromU8 op.toU8 = some op := by
  cases op <;> rfl

end AScript.Bytecode

namespace AScript.Compile

open AScript.Bytecode

inductive ChunkLimit
  | consts
  | jump
  | loop

/-- A loop around the code that is compiled, with the jumps of its `break`s. -/
structure LoopCtx where
  continueTarget : Nat
  breakSites : List Nat

structure Compiler where
  code : List UInt8
  consts : List Literal
  overflow : Option ChunkLimit
  loops : List LoopCtx

/-- `to_le_bytes` of a `u16`. -/
def u16Bytes (n : Nat) : List UInt8 := [.ofNat n, .ofNat (n / 256)]

/-- `to_le_bytes` of an `i16`. -/
def i16Bytes (d : Int) : List UInt8 := u16Bytes (d % 2 ^ 16).toNat

/-- `const_is_dedupable`. -/
def Literal.dedupable : Literal → Bool
  | .int _ => false
  | _ => true

namespace Compiler

def pos (c : Compiler) : Nat := c.code.length

def recordOverflow (c : Compiler) (limit : ChunkLimit) : Compiler :=
  { c with overflow := c.overflow.or (some limit) }

def write (c : Compiler) (bytes : List UInt8) : Compiler := { c with code := c.code ++ bytes }

def emit (c : Compiler) (op : Op) : Compiler := c.write [op.toU8]

def emitU16 (c : Compiler) (op : Op) (operand : Nat) : Compiler :=
  c.write (op.toU8 :: u16Bytes operand)

def emitU8 (c : Compiler) (op : Op) (operand : Nat) : Compiler :=
  c.write [op.toU8, .ofNat operand]

def emitU16U8 (c : Compiler) (op : Op) (a b : Nat) : Compiler :=
  c.write (op.toU8 :: u16Bytes a ++ [.ofNat b])

def emitJump (c : Compiler) (op : Op) : Nat × Compiler :=
  (c.pos + 1, c.write (op.toU8 :: i16Bytes 0))

/-- `i16::try_from`, with a placeholder. -/
def fitI16 (c : Compiler) (limit : ChunkLimit) (d : Int) : Int × Compiler :=
  if -2 ^ 15 ≤ d ∧ d < 2 ^ 15 then (d, c) else (0, c.recordOverflow limit)

def overwrite (c : Compiler) (site : Nat) : List UInt8 → Compiler
  | [lo, hi] => { c with code := (c.code.set site lo).set (site + 1) hi }
  | _ => c

def patchJump (c : Compiler) (site : Nat) : Compiler :=
  let (d, c) := c.fitI16 .jump (c.pos - (site + 2))
  c.overwrite site (i16Bytes d)

def patchJumps (c : Compiler) (sites : List Nat) : Compiler := sites.foldl patchJump c

def emitLoop (c : Compiler) (target : Nat) : Compiler :=
  let (d, c) := c.fitI16 .loop (target - (c.pos + 3))
  c.write (Op.loop.toU8 :: i16Bytes d)

/-- `u16::try_from`, with a placeholder. -/
def fitConst (c : Compiler) (i : Nat) : Nat × Compiler :=
  if i < 2 ^ 16 then (i, c) else (2 ^ 16 - 1, c.recordOverflow .consts)

def addConst (c : Compiler) (l : Literal) : Nat × Compiler :=
  match if l.dedupable then c.consts.idxOf? l else none with
  | some i => c.fitConst i
  | none =>
    let (i, c) := c.fitConst c.consts.length
    (i, { c with consts := c.consts ++ [l] })

def emitConst (c : Compiler) (op : Op) (l : Literal) : Compiler :=
  let (i, c) := c.addConst l
  c.emitU16 op i

end Compiler
end AScript.Compile
