import AScript.Bytecode.Chunk
import AScript.Lib.Wire

/-! Compiled modules as bytes (`vm/aso.rs`). -/

namespace AScript.Bytecode.Aso

open AScript.Lib AScript.Syntax

inductive AsoError
  | badMagic (got : List UInt8)
  | versionMismatch (found expected : Nat)
  | truncated
  | badConst (tag : UInt8)
  | badTag (what : String) (tag : UInt8)
  | badUtf8
  | trailingBytes
  | nonLiteralConst (kind : String)
  | tooLarge (what : String) (len : Nat)

/-- What other code does: the 16 bytes of a decimal, and the lowering of a default from its text. -/
structure Ext where
  serialize : Decimal → List UInt8
  deserialize : List UInt8 → Decimal
  reparse : String → Option Expr

abbrev Put := Lib.Writer AsoError Unit

abbrev Get := Reader Unit AsoError

namespace Put

def u8 : UInt8 → Put := Writer.u8

def flag : Bool → Put := Writer.flag

def u16 (n : UInt16) : Put := Writer.word 2 n.toNat

def u32 (n : UInt32) : Put := Writer.word 4 n.toNat

def u64 (n : UInt64) : Put := Writer.word 8 n.toNat

def i64 (i : I64) : Put := Writer.word 8 (i.val % 2 ^ 64).toNat

def f64 (f : F64) : Put := Writer.word 8 f.bits.toNat

def bytes : List UInt8 → Put := Writer.bytes (.tooLarge "byte field")

def str : String → Put := Writer.str (.tooLarge "byte field")

def len : Nat → Put := Writer.len (.tooLarge "collection")

def opt (put : α → Put) : Option α → Put
  | none => u8 0
  | some a => do
    u8 1
    put a

def counted (n : Nat) (items : Put) : Put := do
  len n
  items

def list (put : α → Put) (as : List α) : Put := counted as.length (as.forM put)

def span (s : Span) : Put := do
  u64 s.start
  u64 s.stop

end Put

namespace Get

def u8 : Get UInt8 := Reader.u8 .truncated

def flag : Get Bool := do return (← u8) != 0

def u16 : Get UInt16 := do return UInt16.ofNat (← Reader.word .truncated 2)

def u32 : Get UInt32 := do return UInt32.ofNat (← Reader.word .truncated 4)

def u64 : Get UInt64 := do return UInt64.ofNat (← Reader.word .truncated 8)

def i64 : Get I64 := do return I64.wrap (← Reader.word .truncated 8)

def f64 : Get F64 := do return ⟨BitVec.ofNat 64 (← Reader.word .truncated 8)⟩

def bytes : Get (List UInt8) := Reader.bytes .truncated

def str : Get String := Reader.str .truncated .badUtf8

def len : Get Nat := Reader.word .truncated 4

def opt (what : String) (get : Get α) : Get (Option α) := do
  let tag ← u8
  match tag.toNat with
  | 0 => return none
  | 1 => return some (← get)
  | _ => throw (.badTag what tag)

def optFlag (get : Get α) : Get (Option α) := do
  if ← flag then return some (← get) else return none

def list (get : Get α) : Get (List α) := do Reader.many get (← len)

def span : Get Span := do
  let start ← u64
  let stop ← u64
  return ⟨start, stop⟩

end Get

mutual

def writeType : Ty → Put
  | .number => Put.u8 0
  | .string => Put.u8 1
  | .bool => Put.u8 2
  | .nil => Put.u8 3
  | .any => Put.u8 4
  | .fn => Put.u8 5
  | .object => Put.u8 6
  | .error => Put.u8 7
  | .array t => do
    Put.u8 8
    writeType t
  | .result t => do
    Put.u8 9
    writeType t
  | .tuple ts => do
    Put.u8 10
    Put.counted ts.length (writeTypes ts)
  | .union a b => do
    Put.u8 11
    writeType a
    writeType b
  | .named n => do
    Put.u8 12
    Put.str n
  | .map k v => do
    Put.u8 13
    writeType k
    writeType v
  | .future t => do
    Put.u8 14
    writeType t
  | .optional t => do
    Put.u8 15
    writeType t
  | .int => Put.u8 16
  | .float => Put.u8 17
  | .param _ => Put.u8 4
  | .fnSig _ _ => Put.u8 5

def writeTypes : List Ty → Put
  | [] => pure ()
  | t :: ts => do
    writeType t
    writeTypes ts

end

def readType : Nat → Get Ty
  | 0 => throw .truncated
  | fuel + 1 => do
    let tag ← Get.u8
    match tag.toNat with
    | 0 => return .number
    | 1 => return .string
    | 2 => return .bool
    | 3 => return .nil
    | 4 => return .any
    | 5 => return .fn
    | 6 => return .object
    | 7 => return .error
    | 8 => return .array (← readType fuel)
    | 9 => return .result (← readType fuel)
    | 10 => return .tuple (← Get.list (readType fuel))
    | 11 => do
      let a ← readType fuel
      let b ← readType fuel
      return .union a b
    | 12 => return .named (← Get.str)
    | 13 => do
      let k ← readType fuel
      let v ← readType fuel
      return .map k v
    | 14 => return .future (← readType fuel)
    | 15 => return .optional (← readType fuel)
    | 16 => return .int
    | 17 => return .float
    | _ => throw (.badTag "type" tag)

section Values

variable (x : Ext)

def writeField : Option String × Ty → Put
  | (name, t) => do
    Put.opt Put.str name
    writeType t

def writeSchema : String × List (Option String × Ty) → Put
  | (name, fields) => do
    Put.str name
    Put.list writeField fields

mutual

def writeValue : Const → Put
  | .nil => Put.u8 0
  | .bool b => do
    Put.u8 1
    Put.flag b
  | .float f => do
    Put.u8 2
    Put.f64 f
  | .str s => do
    Put.u8 3
    Put.str s
  | .decimal d => do
    Put.u8 4
    Writer.put (x.serialize d)
  | .enum name variants schemas => do
    Put.u8 5
    Put.str name
    Put.counted variants.length (writeVariants variants)
    Put.list writeSchema schemas
  | .array vs => do
    Put.u8 6
    Put.counted vs.length (writeValues vs)
  | .int i => do
    Put.u8 7
    Put.i64 i
  | .other kind => throw (.nonLiteralConst kind)

def writeVariant : String × String × String × Const × Bool → Put
  | (key, enumName, name, value, ctor) => do
    Put.str key
    Put.str enumName
    Put.str name
    writeValue value
    Put.flag ctor

def writeVariants : List (String × String × String × Const × Bool) → Put
  | [] => pure ()
  | v :: vs => do
    writeVariant v
    writeVariants vs

def writeValues : List Const → Put
  | [] => pure ()
  | v :: vs => do
    writeValue v
    writeValues vs

end

def readField (fuel : Nat) : Get (Option String × Ty) := do
  let name ← Get.optFlag Get.str
  let t ← readType fuel
  return (name, t)

def readSchema (fuel : Nat) : Get (String × List (Option String × Ty)) := do
  let name ← Get.str
  let fields ← Get.list (readField fuel)
  return (name, fields)

def readVariant (value : Get Const) : Get (String × String × String × Const × Bool) := do
  let key ← Get.str
  let enumName ← Get.str
  let name ← Get.str
  let backing ← value
  let ctor ← Get.flag
  return (key, enumName, name, backing, ctor)

def readDecimal : Get Decimal := do return x.deserialize (← Reader.take .truncated 16)

def readValue : Nat → Get Const
  | 0 => throw .truncated
  | fuel + 1 => do
    let tag ← Get.u8
    match tag.toNat with
    | 0 => return .nil
    | 1 => return .bool (← Get.flag)
    | 2 => return .float (← Get.f64)
    | 3 => return .str (← Get.str)
    | 4 => return .decimal (← readDecimal x)
    | 5 => do
      let name ← Get.str
      let variants ← Get.list (readVariant (readValue fuel))
      let schemas ← Get.list (readSchema fuel)
      return .enum name (IndexMap.ofPairs variants).entries (IndexMap.ofPairs schemas).entries
    | 6 => return .array (← Get.list (readValue fuel))
    | 7 => return .int (← Get.i64)
    | _ => throw (.badConst tag)

end Values

def unopTag : UnOp → UInt8
  | .neg => 0
  | .not => 1
  | .bitNot => 2

def unopFromTag (tag : UInt8) : Get UnOp :=
  match tag.toNat with
  | 0 => return .neg
  | 1 => return .not
  | 2 => return .bitNot
  | _ => throw (.badTag "unop" tag)

def binopTag : BinOp → UInt8
  | .add => 0
  | .sub => 1
  | .mul => 2
  | .div => 3
  | .mod => 4
  | .pow => 5
  | .lt => 6
  | .le => 7
  | .gt => 8
  | .ge => 9
  | .eq => 10
  | .ne => 11
  | .and => 12
  | .or => 13
  | .coalesce => 14
  | .range => 15
  | .instanceOf => 16
  | .bitAnd => 17
  | .bitOr => 18
  | .bitXor => 19
  | .shl => 20
  | .shr => 21
  | .wrapAdd => 22
  | .wrapSub => 23
  | .wrapMul => 24

def binopFromTag (tag : UInt8) : Get BinOp :=
  match tag.toNat with
  | 0 => return .add
  | 1 => return .sub
  | 2 => return .mul
  | 3 => return .div
  | 4 => return .mod
  | 5 => return .pow
  | 6 => return .lt
  | 7 => return .le
  | 8 => return .gt
  | 9 => return .ge
  | 10 => return .eq
  | 11 => return .ne
  | 12 => return .and
  | 13 => return .or
  | 14 => return .coalesce
  | 15 => return .range
  | 16 => return .instanceOf
  | 17 => return .bitAnd
  | 18 => return .bitOr
  | 19 => return .bitXor
  | 20 => return .shl
  | 21 => return .shr
  | 22 => return .wrapAdd
  | 23 => return .wrapSub
  | 24 => return .wrapMul
  | _ => throw (.badTag "binop" tag)

mutual

def writeExpr : Expr → Put
  | .mk kind span => do
    Put.span span
    writeKind kind

def writeKind : ExprKind → Put
  | .float f => do
    Put.u8 0
    Put.f64 f
  | .str s => do
    Put.u8 1
    Put.str s
  | .bool b => do
    Put.u8 2
    Put.flag b
  | .nil => Put.u8 3
  | .ident name => do
    Put.u8 4
    Put.str name
  | .paren e => do
    Put.u8 5
    writeExpr e
  | .unary op e => do
    Put.u8 6
    Put.u8 (unopTag op)
    writeExpr e
  | .array elems => do
    Put.u8 7
    Put.counted elems.length (writeElems elems)
  | .object entries => do
    Put.u8 8
    Put.counted entries.length (writeEntries entries)
  | .member object name => do
    Put.u8 9
    Put.str name
    writeExpr object
  | .call callee args _ => do
    Put.u8 10
    writeExpr callee
    Put.counted args.length (writeArgs args)
  | .binary op lhs rhs => do
    Put.u8 11
    Put.u8 (binopTag op)
    writeExpr lhs
    writeExpr rhs
  | .index object index => do
    Put.u8 12
    writeExpr object
    writeExpr index
  | .optMember object name => do
    Put.u8 13
    Put.str name
    writeExpr object
  | .ternary cond thn els => do
    Put.u8 14
    writeExpr cond
    writeExpr thn
    writeExpr els
  | .template parts => do
    Put.u8 15
    Put.counted parts.length (writeParts parts)
  | .try e => do
    Put.u8 16
    writeExpr e
  | .unwrap e => do
    Put.u8 17
    writeExpr e
  | .await e => do
    Put.u8 18
    writeExpr e
  | .assign target value => do
    Put.u8 19
    writeExpr target
    writeExpr value
  | .range start stop inclusive step => do
    Put.u8 20
    Put.flag inclusive
    writeExpr start
    writeExpr stop
    match step with
    | none => Put.u8 0
    | some s => do
      Put.u8 1
      writeExpr s
  | .map entries => do
    Put.u8 22
    Put.counted entries.length (writePairs entries)
  | .int i => do
    Put.u8 23
    Put.i64 i
  | .arrow _ => throw (.nonLiteralConst "arrow-default")
  | .match _ => throw (.nonLiteralConst "match-default")
  | .yield _ => throw (.nonLiteralConst "yield-default")

def writeElem : ArrayElem → Put
  | .item e => do
    Put.u8 0
    writeExpr e
  | .spread e => do
    Put.u8 1
    writeExpr e

def writeElems : List ArrayElem → Put
  | [] => pure ()
  | e :: es => do
    writeElem e
    writeElems es

def writeEntry : ObjEntry → Put
  | .kv k v => do
    Put.u8 0
    Put.str k
    writeExpr v
  | .spread e => do
    Put.u8 1
    writeExpr e

def writeEntries : List ObjEntry → Put
  | [] => pure ()
  | e :: es => do
    writeEntry e
    writeEntries es

def writePair : MapEntry → Put
  | .mk key value => do
    writeExpr key
    writeExpr value

def writePairs : List MapEntry → Put
  | [] => pure ()
  | e :: es => do
    writePair e
    writePairs es

def writeArg : CallArg → Put
  | .pos e => do
    Put.u8 0
    writeExpr e
  | .spread e => do
    Put.u8 1
    writeExpr e
  | .named name value => do
    Put.u8 2
    Put.str name
    writeExpr value

def writeArgs : List CallArg → Put
  | [] => pure ()
  | a :: as => do
    writeArg a
    writeArgs as

def writePart : TemplatePart → Put
  | .lit s => do
    Put.u8 0
    Put.str s
  | .expr e => do
    Put.u8 1
    writeExpr e

def writeParts : List TemplatePart → Put
  | [] => pure ()
  | p :: ps => do
    writePart p
    writeParts ps

end

section Exprs

variable (expr : Get Expr)

def readElem : Get ArrayElem := do
  let tag ← Get.u8
  match tag.toNat with
  | 0 => return .item (← expr)
  | 1 => return .spread (← expr)
  | _ => throw (.badTag "array-elem" tag)

def readEntry : Get ObjEntry := do
  let tag ← Get.u8
  match tag.toNat with
  | 0 => do
    let k ← Get.str
    let v ← expr
    return .kv k v
  | 1 => return .spread (← expr)
  | _ => throw (.badTag "object-entry" tag)

def readPair : Get MapEntry := do
  let key ← expr
  let value ← expr
  return .mk key value

def readArg : Get CallArg := do
  let tag ← Get.u8
  match tag.toNat with
  | 0 => return .pos (← expr)
  | 1 => return .spread (← expr)
  | 2 => do
    let name ← Get.str
    let value ← expr
    return .named name value
  | _ => throw (.badTag "call-arg" tag)

def readPart : Get TemplatePart := do
  let tag ← Get.u8
  match tag.toNat with
  | 0 => return .lit (← Get.str)
  | 1 => return .expr (← expr)
  | _ => throw (.badTag "template-part" tag)

def readExprKind (tag : UInt8) : Get ExprKind :=
  match tag.toNat with
  | 0 => do return .float (← Get.f64)
  | 1 => do return .str (← Get.str)
  | 2 => do return .bool (← Get.flag)
  | 3 => return .nil
  | 4 => do return .ident (← Get.str)
  | 5 => do return .paren (← expr)
  | 6 => do
    let op ← Get.u8 >>= unopFromTag
    let e ← expr
    return .unary op e
  | 7 => do return .array (← Get.list (readElem expr))
  | 8 => do return .object (← Get.list (readEntry expr))
  | 9 => do
    let name ← Get.str
    let object ← expr
    return .member object name
  | 10 => do
    let callee ← expr
    let args ← Get.list (readArg expr)
    return .call callee args false
  | 11 => do
    let op ← Get.u8 >>= binopFromTag
    let lhs ← expr
    let rhs ← expr
    return .binary op lhs rhs
  | 12 => do
    let object ← expr
    let index ← expr
    return .index object index
  | 13 => do
    let name ← Get.str
    let object ← expr
    return .optMember object name
  | 14 => do
    let cond ← expr
    let thn ← expr
    let els ← expr
    return .ternary cond thn els
  | 15 => do return .template (← Get.list (readPart expr))
  | 16 => do return .try (← expr)
  | 17 => do return .unwrap (← expr)
  | 18 => do return .await (← expr)
  | 19 => do
    let target ← expr
    let value ← expr
    return .assign target value
  | 20 => do
    let inclusive ← Get.flag
    let start ← expr
    let stop ← expr
    let present ← Get.u8
    let step ← if present = 1 then some <$> expr else pure none
    return .range start stop inclusive step
  | 22 => do return .map (← Get.list (readPair expr))
  | 23 => do return .int (← Get.i64)
  | _ => throw (.badTag "expr" tag)

end Exprs

def readExpr : Nat → Get Expr
  | 0 => throw .truncated
  | fuel + 1 => do
    let span ← Get.span
    let tag ← Get.u8
    let kind ← readExprKind (readExpr fuel) tag
    return .mk kind span

def sourceOf (sources : List (String × String)) (field : String) : Option String :=
  (sources.reverse.find? (·.1 == field)).map Prod.snd

def exprSpan : Expr → Span
  | .mk _ span => span

def writeFieldDefault (source : Option String) (e : Expr) : Put :=
  match source with
  | some src => do
    Put.span (exprSpan e)
    Put.u8 21
    Put.str src
  | none => writeExpr e

def writeFieldSchema (sources : List (String × String)) : String × FieldSchema → Put
  | (name, schema) => do
    Put.str name
    writeType schema.ty
    Put.opt (writeFieldDefault (sourceOf sources name)) schema.default

def writeClass (sources : List (String × String)) (c : Class) : Put := do
  Put.str c.name
  Put.flag c.isWorker
  Put.list (writeFieldSchema sources) c.fields.entries

def writeCapture : String × UInt16 → Put
  | (name, idx) => do
    Put.str name
    Put.u16 idx

def writeClassProto (cp : ClassProto) : Put := do
  writeClass cp.defaultSources cp.template
  Put.list Put.str cp.defaultFields
  Put.list Put.str cp.methodNames
  Put.list Put.str cp.staticMethodNames
  Put.list (Put.list writeCapture) cp.defaultCaptures
  Put.flag cp.hasSuper

def writeMethod : String × UInt64 × Bool → Put
  | (name, arity, hasRest) => do
    Put.str name
    Put.u64 arity
    Put.flag hasRest

def writeInterfaceProto (ip : InterfaceProto) : Put := do
  Put.str ip.name
  Put.list writeMethod ip.methods
  Put.list Put.str ip.parents

section Classes

variable (x : Ext)

def readFieldDefault (fuel : Nat) : Get (Expr × Option String) := do
  let span ← Get.span
  let tag ← Get.u8
  if tag = 21 then
    let src ← Get.str
    match x.reparse src with
    | some e => return (e, some src)
    | none => throw (.badTag "reparse-default" 21)
  else
    let kind ← readExprKind (readExpr fuel) tag
    return (.mk kind span, none)

def readFieldSchema (fuel : Nat) : Get (String × FieldSchema × Option String) := do
  let name ← Get.str
  let ty ← readType fuel
  let default ← Get.opt "field-default" (readFieldDefault x fuel)
  return (name, ⟨ty, default.map Prod.fst⟩, default.bind Prod.snd)

def readClass (fuel : Nat) : Get (Class × List (String × String)) := do
  let name ← Get.str
  let isWorker ← Get.flag
  let fields ← Get.list (readFieldSchema x fuel)
  return (⟨name, isWorker, .ofPairs (fields.map fun f => (f.1, f.2.1))⟩,
    fields.filterMap fun f => f.2.2.map (f.1, ·))

def readCapture : Get (String × UInt16) := do
  let name ← Get.str
  let idx ← Get.u16
  return (name, idx)

def readClassProto (fuel : Nat) : Get ClassProto := do
  let (template, defaultSources) ← readClass x fuel
  let defaultFields ← Get.list Get.str
  let methodNames ← Get.list Get.str
  let staticMethodNames ← Get.list Get.str
  let defaultCaptures ← Get.list (Get.list readCapture)
  let hasSuper ← Get.flag
  return ⟨template, defaultFields, defaultCaptures, defaultSources, methodNames,
    staticMethodNames, hasSuper⟩

end Classes

def readMethod : Get (String × UInt64 × Bool) := do
  let name ← Get.str
  let arity ← Get.u64
  let hasRest ← Get.flag
  return (name, arity, hasRest)

def readInterfaceProto : Get InterfaceProto := do
  let name ← Get.str
  let methods ← Get.list readMethod
  let parents ← Get.list Get.str
  return ⟨name, methods, parents⟩

def writeImportName (n : ImportName) : Put := do
  Put.str n.name
  Put.u16 n.slot
  Put.flag n.isCell
  Put.flag n.isGlobal

def writeImport : ImportDesc → Put
  | .named source names => do
    Put.u8 0
    Put.str source
    Put.list writeImportName names
  | .namespace source bound => do
    Put.u8 1
    Put.str source
    writeImportName bound

def readImportName : Get ImportName := do
  let name ← Get.str
  let slot ← Get.u16
  let isCell ← Get.flag
  let isGlobal ← Get.flag
  return ⟨name, slot, isCell, isGlobal⟩

def readImport : Get ImportDesc := do
  let tag ← Get.u8
  match tag.toNat with
  | 0 => do
    let source ← Get.str
    let names ← Get.list readImportName
    return .named source names
  | 1 => do
    let source ← Get.str
    let bound ← readImportName
    return .namespace source bound
  | _ => throw (.badTag "import" tag)

def writeUpvalue : UpvalueDescriptor → Put
  | .parentLocal slot byValue => do
    Put.u8 0
    Put.u32 slot
    Put.flag byValue
  | .parentUpvalue i => do
    Put.u8 1
    Put.u32 i

def readUpvalue : Get UpvalueDescriptor := do
  let tag ← Get.u8
  match tag.toNat with
  | 0 => do
    let slot ← Get.u32
    let byValue ← Get.flag
    return .parentLocal slot byValue
  | 1 => return .parentUpvalue (← Get.u32)
  | _ => throw (.badTag "upvalue" tag)

def writeParam (p : Param) : Put := do
  Put.str p.name
  Put.opt writeType p.ty
  Put.span p.nameSpan
  Put.flag p.rest
  Put.flag p.default.isSome

def readParam (fuel : Nat) : Get Param := do
  let name ← Get.str
  let ty ← Get.opt "opt-type" (readType fuel)
  let nameSpan ← Get.span
  let rest ← Get.flag
  let hasDefault ← Get.flag
  return ⟨name, ty, nameSpan, rest, if hasDefault then some (.mk .nil nameSpan) else none⟩

def writeSpan : UInt64 × Span → Put
  | (offset, span) => do
    Put.u64 offset
    Put.span span

def readSpan : Get (UInt64 × Span) := do
  let offset ← Get.u64
  let span ← Get.span
  return (offset, span)

def writeLocal : UInt32 × String → Put
  | (slot, name) => do
    Put.u32 slot
    Put.str name

def readLocal : Get (UInt32 × String) := do
  let slot ← Get.u32
  let name ← Get.str
  return (slot, name)

def flags (s : Signature) : UInt8 :=
  s.hasRest.toUInt8 + 2 * s.isAsync.toUInt8 + 4 * s.isGenerator.toUInt8 + 8 * s.isWorker.toUInt8 +
    16 * s.owningClass.isSome.toUInt8

def bit (flags : UInt8) (i : Nat) : Bool := flags.toNat.testBit i

section Chunks

variable (x : Ext)

/-- `write_chunk`, given how the nested functions are written. -/
def writeTables (t : Tables) (protos : Put) : Put := do
  Put.bytes t.code
  Put.list (writeValue x) t.consts
  protos
  Put.list writeClassProto t.classProtos
  Put.list writeInterfaceProto t.interfaceProtos
  Put.list writeImport t.imports
  Put.list writeType t.typeConsts
  Put.list writeSpan t.spans
  Put.list writeUpvalue t.upvalues
  Put.list Put.u32 t.cellSlots
  Put.u16 t.slotCount
  Put.u16 t.icCount
  Put.opt Put.str t.name

/-- `read_chunk`, given how the nested functions are read. -/
def readTables (fuel : Nat) (protos : Get (List FnProto)) : Get Chunk := do
  let code ← Get.bytes
  let consts ← Get.list (readValue x fuel)
  let protos ← protos
  let classProtos ← Get.list (readClassProto x fuel)
  let interfaceProtos ← Get.list readInterfaceProto
  let imports ← Get.list readImport
  let typeConsts ← Get.list (readType fuel)
  let spans ← Get.list readSpan
  let upvalues ← Get.list readUpvalue
  let cellSlots ← Get.list Get.u32
  let slotCount ← Get.u16
  let icCount ← Get.u16
  let name ← Get.opt "opt-string" Get.str
  return ⟨⟨code, consts, classProtos, interfaceProtos, imports, typeConsts, spans, upvalues,
    cellSlots, slotCount, icCount, name, none⟩, protos⟩

def writeHead (s : Signature) : Put := do
  Put.u8 s.arity
  Put.u8 (flags s)
  Put.list writeParam s.params
  Put.opt writeType s.ret
  match s.owningClass with
  | some cls => Put.str cls
  | none => pure ()

def readHead (fuel : Nat) : Get Signature := do
  let arity ← Get.u8
  let flags ← Get.u8
  let params ← Get.list (readParam fuel)
  let ret ← Get.opt "opt-type" (readType fuel)
  let owningClass ← if bit flags 4 then some <$> Get.str else pure none
  return ⟨arity, bit flags 0, bit flags 1, bit flags 2, bit flags 3, owningClass, params, ret, [],
    none, none⟩

def writeDebug (withDebug : Bool) (s : Signature) : Put :=
  if withDebug then do
    Put.list writeLocal s.localNames
    Put.opt Put.str s.debugName
  else pure ()

def readDebug (withDebug : Bool) : Get (List (UInt32 × String) × Option String) :=
  if withDebug then do
    let localNames ← Get.list readLocal
    let debugName ← Get.opt "opt-string" Get.str
    return (localNames, debugName)
  else pure ([], none)

mutual

def writeProto (withDebug : Bool) : FnProto → Put
  | .mk s t ps => do
    writeHead s
    writeTables x t (Put.counted ps.length (writeProtos withDebug ps))
    writeDebug withDebug s

def writeProtos (withDebug : Bool) : List FnProto → Put
  | [] => pure ()
  | p :: ps => do
    writeProto withDebug p
    writeProtos withDebug ps

end

def writeChunk (withDebug : Bool) (c : Chunk) : Put :=
  writeTables x c.toTables (Put.counted c.protos.length (writeProtos x withDebug c.protos))

def readProto (withDebug : Bool) : Nat → Get FnProto
  | 0 => throw .truncated
  | fuel + 1 => do
    let s ← readHead fuel
    let c ← readTables x fuel (Get.list (readProto withDebug fuel))
    let (localNames, debugName) ← readDebug withDebug
    return .mk { s with localNames, debugName } c.toTables c.protos

def readChunk (withDebug : Bool) (fuel : Nat) : Get Chunk :=
  readTables x fuel (Get.list (readProto x withDebug fuel))

def magic : List UInt8 := [65, 83, 79, 0]

def formatVersion : Nat := 29

def writeSource (s : SourceInfo) : Put := do
  Put.str s.path
  Put.str s.text

def readSource : Get SourceInfo := do
  let path ← Get.str
  let text ← Get.str
  return ⟨path, text⟩

def writeModule (withDebug : Bool) (c : Chunk) : Put := do
  Writer.put magic
  Writer.word 4 formatVersion
  Put.flag withDebug
  if withDebug then Put.opt writeSource c.source else pure ()
  writeChunk x withDebug c

def toBytesWithDebug (c : Chunk) (withDebug : Bool) : Except AsoError (List UInt8) :=
  match writeModule x withDebug c ⟨[], none⟩ with
  | .error e => .error e
  | .ok (_, ⟨_, some e⟩) => .error e
  | .ok (_, ⟨bytes, none⟩) => .ok bytes

mutual

def protoSetSource (src : SourceInfo) : FnProto → FnProto
  | .mk s t ps =>
    if t.source.isSome then .mk s t ps
    else .mk s { t with source := some src } (protosSetSource src ps)

def protosSetSource (src : SourceInfo) : List FnProto → List FnProto
  | [] => []
  | p :: ps => protoSetSource src p :: protosSetSource src ps

end

def setModuleSource (src : SourceInfo) (c : Chunk) : Chunk :=
  if c.source.isSome then c
  else { c with source := some src, protos := protosSetSource src c.protos }

def readModule (fuel : Nat) : Get Chunk := do
  let got ← Reader.take .truncated 4
  if got ≠ magic then throw (.badMagic got)
  let version ← Reader.word .truncated 4
  if version ≠ formatVersion then throw (.versionMismatch version formatVersion)
  let withDebug ← Get.flag
  let src ← if withDebug then Get.optFlag readSource else pure none
  let c ← readChunk x withDebug fuel
  match src with
  | some src => return setModuleSource src c
  | none => return c

def fromBytes (fuel : Nat) (bytes : List UInt8) : Except AsoError Chunk :=
  match readModule x fuel (bytes, ()) with
  | .error e => .error e
  | .ok (c, ([], _)) => .ok c
  | .ok (_, (_ :: _, _)) => .error .trailingBytes

end Chunks

end AScript.Bytecode.Aso
