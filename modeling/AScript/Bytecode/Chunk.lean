import AScript.Bytecode.Opcode
import AScript.Lib.IndexMap
import AScript.Syntax.Ast

/-! Compiled chunks (`vm/chunk.rs`), their runtime caches left out. -/

namespace AScript.Bytecode

open AScript.Lib AScript.Syntax

structure Decimal where
  lo : UInt32
  mid : UInt32
  hi : UInt32
  scale : Fin 29
  negative : Bool

inductive Const
  | nil
  | bool : Bool → Const
  | int : I64 → Const
  | float : F64 → Const
  | str : String → Const
  | decimal : Decimal → Const
  | enum : String → List (String × String × String × Const × Bool) →
      List (String × List (Option String × Ty)) → Const
  | array : List Const → Const
  | other : String → Const

def Const.isStr : Const → Bool
  | .str _ => true
  | _ => false

inductive UpvalueDescriptor
  | parentLocal : (slot : UInt32) → (byValue : Bool) → UpvalueDescriptor
  | parentUpvalue : UInt32 → UpvalueDescriptor
  deriving DecidableEq

structure ImportName where
  name : String
  slot : UInt16
  isCell : Bool
  isGlobal : Bool
  deriving DecidableEq

inductive ImportDesc
  | named : (source : String) → List ImportName → ImportDesc
  | namespace : (source : String) → ImportName → ImportDesc
  deriving DecidableEq

structure FieldSchema where
  ty : Ty
  default : Option Expr

structure Class where
  name : String
  isWorker : Bool
  fields : IndexMap String FieldSchema

structure ClassProto where
  template : Class
  defaultFields : List String
  defaultCaptures : List (List (String × UInt16))
  defaultSources : List (String × String)
  methodNames : List String
  staticMethodNames : List String
  hasSuper : Bool

structure InterfaceProto where
  name : String
  methods : List (String × UInt64 × Bool)
  parents : List String
  deriving DecidableEq

structure SourceInfo where
  path : String
  text : String
  deriving DecidableEq

structure Tables where
  code : List UInt8
  consts : List Const
  classProtos : List ClassProto
  interfaceProtos : List InterfaceProto
  imports : List ImportDesc
  typeConsts : List Ty
  spans : List (UInt64 × Span)
  upvalues : List UpvalueDescriptor
  cellSlots : List UInt32
  slotCount : UInt16
  icCount : UInt16
  name : Option String
  source : Option SourceInfo

structure Signature where
  arity : UInt8
  hasRest : Bool
  isAsync : Bool
  isGenerator : Bool
  isWorker : Bool
  owningClass : Option String
  params : List Param
  ret : Option Ty
  localNames : List (UInt32 × String)
  debugName : Option String
  nameSpan : Option Span

inductive FnProto
  | mk : Signature → Tables → List FnProto → FnProto

structure Chunk extends Tables where
  protos : List FnProto

namespace FnProto

def signature : FnProto → Signature
  | .mk s _ _ => s

def chunk : FnProto → Chunk
  | .mk _ t ps => ⟨t, ps⟩

end FnProto

namespace Chunk

def new : Chunk where
  code := []
  consts := []
  protos := []
  classProtos := []
  interfaceProtos := []
  imports := []
  typeConsts := []
  spans := []
  upvalues := []
  cellSlots := []
  slotCount := 0
  icCount := 0
  name := none
  source := none

def byte (c : Chunk) (i : Nat) : Nat := ((c.code[i]?).getD 0).toNat

def readU8 (c : Chunk) (i : Nat) : Nat := c.byte i

def readU16 (c : Chunk) (i : Nat) : Nat := c.byte i + 256 * c.byte (i + 1)

def readI16 (c : Chunk) (i : Nat) : Int :=
  if c.readU16 i < 2 ^ 15 then c.readU16 i else (c.readU16 i : Int) - 2 ^ 16

end Chunk
end AScript.Bytecode
