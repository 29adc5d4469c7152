import AScript.Bytecode.Aso

namespace AScript.Bytecode.Aso

open AScript.Lib AScript.Syntax

def Short (s : String) : Prop := (utf8 s).length < 2 ^ 32

def Few (as : List α) : Prop := as.length < 2 ^ 32

instance : Decidable (Short s) := inferInstanceAs (Decidable (_ < _))

instance {as : List α} : Decidable (Few as) := inferInstanceAs (Decidable (_ < _))

mutual

def eraseType : Ty → Ty
  | .number => .number
  | .int => .int
  | .float => .float
  | .string => .string
  | .bool => .bool
  | .nil => .nil
  | .any => .any
  | .fn => .fn
  | .object => .object
  | .error => .error
  | .array t => .array (eraseType t)
  | .result t => .result (eraseType t)
  | .tuple ts => .tuple (eraseTypes ts)
  | .union a b => .union (eraseType a) (eraseType b)
  | .named n => .named n
  | .map k v => .map (eraseType k) (eraseType v)
  | .future t => .future (eraseType t)
  | .optional t => .optional (eraseType t)
  | .param _ => .any
  | .fnSig _ _ => .fn

def eraseTypes : List Ty → List Ty
  | [] => []
  | t :: ts => eraseType t :: eraseTypes ts

end

mutual

def TypeFits : Ty → Prop
  | .array t => TypeFits t
  | .result t => TypeFits t
  | .tuple ts => Few ts ∧ TypesFit ts
  | .union a b => TypeFits a ∧ TypeFits b
  | .named n => Short n
  | .map k v => TypeFits k ∧ TypeFits v
  | .future t => TypeFits t
  | .optional t => TypeFits t
  | _ => True

def TypesFit : List Ty → Prop
  | [] => True
  | t :: ts => TypeFits t ∧ TypesFit ts

end

def eraseField (f : Option String × Ty) : Option String × Ty := (f.1, eraseType f.2)

def eraseSchema (s : String × List (Option String × Ty)) : String × List (Option String × Ty) :=
  (s.1, s.2.map eraseField)

mutual

def eraseConst : Const → Const
  | .nil => .nil
  | .bool b => .bool b
  | .int i => .int i
  | .float f => .float f
  | .str s => .str s
  | .decimal d => .decimal d
  | .enum name variants schemas =>
    .enum name (eraseVariants variants) (schemas.map eraseSchema)
  | .array vs => .array (eraseConsts vs)
  | .other kind => .other kind

def eraseVariant : String × String × String × Const × Bool →
    String × String × String × Const × Bool
  | (key, enumName, name, value, ctor) => (key, enumName, name, eraseConst value, ctor)

def eraseVariants : List (String × String × String × Const × Bool) →
    List (String × String × String × Const × Bool)
  | [] => []
  | v :: vs => eraseVariant v :: eraseVariants vs

def eraseConsts : List Const → List Const
  | [] => []
  | v :: vs => eraseConst v :: eraseConsts vs

end

def FieldFits (f : Option String × Ty) : Prop := (∀ name ∈ f.1, Short name) ∧ TypeFits f.2

def SchemaFits (s : String × List (Option String × Ty)) : Prop :=
  Short s.1 ∧ Few s.2 ∧ ∀ f ∈ s.2, FieldFits f

mutual

def ConstFits : Const → Prop
  | .str s => Short s
  | .enum name variants schemas =>
    Short name ∧ (Few variants ∧ (variants.map Prod.fst).Nodup ∧ VariantsFit variants) ∧
      Few schemas ∧ (schemas.map Prod.fst).Nodup ∧ ∀ s ∈ schemas, SchemaFits s
  | .array vs => Few vs ∧ ConstsFit vs
  | .other _ => False
  | _ => True

def VariantFits : String × String × String × Const × Bool → Prop
  | (key, enumName, name, value, _) => Short key ∧ Short enumName ∧ Short name ∧ ConstFits value

def VariantsFit : List (String × String × String × Const × Bool) → Prop
  | [] => True
  | v :: vs => VariantFits v ∧ VariantsFit vs

def ConstsFit : List Const → Prop
  | [] => True
  | v :: vs => ConstFits v ∧ ConstsFit vs

end

mutual

def eraseExpr : Expr → Expr
  | .mk kind span => .mk (eraseKind kind) span

def eraseKind : ExprKind → ExprKind
  | .int i => .int i
  | .float f => .float f
  | .str s => .str s
  | .bool b => .bool b
  | .nil => .nil
  | .ident name => .ident name
  | .unary op e => .unary op (eraseExpr e)
  | .binary op a b => .binary op (eraseExpr a) (eraseExpr b)
  | .call callee args _ => .call (eraseExpr callee) (eraseArgs args) false
  | .assign a b => .assign (eraseExpr a) (eraseExpr b)
  | .arrow n => .arrow n
  | .array es => .array (eraseElems es)
  | .index a b => .index (eraseExpr a) (eraseExpr b)
  | .object es => .object (eraseEntries es)
  | .map es => .map (erasePairs es)
  | .member e name => .member (eraseExpr e) name
  | .optMember e name => .optMember (eraseExpr e) name
  | .try e => .try (eraseExpr e)
  | .unwrap e => .unwrap (eraseExpr e)
  | .ternary a b c => .ternary (eraseExpr a) (eraseExpr b) (eraseExpr c)
  | .template ps => .template (eraseParts ps)
  | .match n => .match n
  | .await e => .await (eraseExpr e)
  | .yield n => .yield n
  | .paren e => .paren (eraseExpr e)
  | .range a b inclusive none => .range (eraseExpr a) (eraseExpr b) inclusive none
  | .range a b inclusive (some step) =>
    .range (eraseExpr a) (eraseExpr b) inclusive (some (eraseExpr step))

def eraseElem : ArrayElem → ArrayElem
  | .item e => .item (eraseExpr e)
  | .spread e => .spread (eraseExpr e)

def eraseElems : List ArrayElem → List ArrayElem
  | [] => []
  | e :: es => eraseElem e :: eraseElems es

def eraseEntry : ObjEntry → ObjEntry
  | .kv k v => .kv k (eraseExpr v)
  | .spread e => .spread (eraseExpr e)

def eraseEntries : List ObjEntry → List ObjEntry
  | [] => []
  | e :: es => eraseEntry e :: eraseEntries es

def erasePair : MapEntry → MapEntry
  | .mk key value => .mk (eraseExpr key) (eraseExpr value)

def erasePairs : List MapEntry → List MapEntry
  | [] => []
  | e :: es => erasePair e :: erasePairs es

def eraseArg : CallArg → CallArg
  | .pos e => .pos (eraseExpr e)
  | .spread e => .spread (eraseExpr e)
  | .named name e => .named name (eraseExpr e)

def eraseArgs : List CallArg → List CallArg
  | [] => []
  | a :: as => eraseArg a :: eraseArgs as

def erasePart : TemplatePart → TemplatePart
  | .lit s => .lit s
  | .expr e => .expr (eraseExpr e)

def eraseParts : List TemplatePart → List TemplatePart
  | [] => []
  | p :: ps => erasePart p :: eraseParts ps

end

mutual

def ExprFits : Expr → Prop
  | .mk kind _ => KindFits kind

def KindFits : ExprKind → Prop
  | .int _ => True
  | .float _ => True
  | .str s => Short s
  | .bool _ => True
  | .nil => True
  | .ident name => Short name
  | .unary _ e => ExprFits e
  | .binary _ a b => ExprFits a ∧ ExprFits b
  | .call callee args _ => ExprFits callee ∧ Few args ∧ ArgsFit args
  | .assign a b => ExprFits a ∧ ExprFits b
  | .arrow _ => False
  | .array es => Few es ∧ ElemsFit es
  | .index a b => ExprFits a ∧ ExprFits b
  | .object es => Few es ∧ EntriesFit es
  | .map es => Few es ∧ PairsFit es
  | .member e name => Short name ∧ ExprFits e
  | .optMember e name => Short name ∧ ExprFits e
  | .try e => ExprFits e
  | .unwrap e => ExprFits e
  | .ternary a b c => ExprFits a ∧ ExprFits b ∧ ExprFits c
  | .template ps => Few ps ∧ PartsFit ps
  | .match _ => False
  | .await e => ExprFits e
  | .yield _ => False
  | .paren e => ExprFits e
  | .range a b _ none => ExprFits a ∧ ExprFits b
  | .range a b _ (some step) => ExprFits a ∧ ExprFits b ∧ ExprFits step

def ElemFits : ArrayElem → Prop
  | .item e => ExprFits e
  | .spread e => ExprFits e

def ElemsFit : List ArrayElem → Prop
  | [] => True
  | e :: es => ElemFits e ∧ ElemsFit es

def EntryFits : ObjEntry → Prop
  | .kv k v => Short k ∧ ExprFits v
  | .spread e => ExprFits e

def EntriesFit : List ObjEntry → Prop
  | [] => True
  | e :: es => EntryFits e ∧ EntriesFit es

def PairFits : MapEntry → Prop
  | .mk key value => ExprFits key ∧ ExprFits value

def PairsFit : List MapEntry → Prop
  | [] => True
  | e :: es => PairFits e ∧ PairsFit es

def ArgFits : CallArg → Prop
  | .pos e => ExprFits e
  | .spread e => ExprFits e
  | .named name e => Short name ∧ ExprFits e

def ArgsFit : List CallArg → Prop
  | [] => True
  | a :: as => ArgFits a ∧ ArgsFit as

def PartFits : TemplatePart → Prop
  | .lit s => Short s
  | .expr e => ExprFits e

def PartsFit : List TemplatePart → Prop
  | [] => True
  | p :: ps => PartFits p ∧ PartsFit ps

end

def eraseDefault (source : Option String) (e : Expr) : Expr :=
  if source.isSome then e else eraseExpr e

def eraseFieldSchema (sources : List (String × String)) (f : String × FieldSchema) :
    String × FieldSchema :=
  (f.1, ⟨eraseType f.2.ty, f.2.default.map (eraseDefault (sourceOf sources f.1))⟩)

def keptSources (sources : List (String × String)) (fields : List (String × FieldSchema)) :
    List (String × String) :=
  fields.filterMap fun f => f.2.default.bind fun _ => (sourceOf sources f.1).map (f.1, ·)

def eraseClass (sources : List (String × String)) (c : Class) : Class :=
  { c with fields := ⟨c.fields.entries.map (eraseFieldSchema sources), by
      rw [List.map_map]
      exact c.fields.nodup⟩ }

def eraseClassProto (cp : ClassProto) : ClassProto :=
  { cp with
    template := eraseClass cp.defaultSources cp.template
    defaultSources := keptSources cp.defaultSources cp.template.fields.entries }

section Ext

variable (x : Ext)

def DefaultFits (source : Option String) (e : Expr) : Prop :=
  match source with
  | some src => Short src ∧ x.reparse src = some e
  | none => ExprFits e

def FieldSchemaFits (sources : List (String × String)) (f : String × FieldSchema) : Prop :=
  Short f.1 ∧ TypeFits f.2.ty ∧ ∀ e ∈ f.2.default, DefaultFits x (sourceOf sources f.1) e

structure ClassProtoFits (cp : ClassProto) : Prop where
  name : Short cp.template.name
  fields : Few cp.template.fields.entries ∧
    ∀ f ∈ cp.template.fields.entries, FieldSchemaFits x cp.defaultSources f
  defaultFields : Few cp.defaultFields ∧ ∀ f ∈ cp.defaultFields, Short f
  methodNames : Few cp.methodNames ∧ ∀ m ∈ cp.methodNames, Short m
  staticMethodNames : Few cp.staticMethodNames ∧ ∀ m ∈ cp.staticMethodNames, Short m
  defaultCaptures : Few cp.defaultCaptures ∧
    ∀ cs ∈ cp.defaultCaptures, Few cs ∧ ∀ c ∈ cs, Short c.1

end Ext

structure InterfaceProtoFits (ip : InterfaceProto) : Prop where
  name : Short ip.name
  methods : Few ip.methods ∧ ∀ m ∈ ip.methods, Short m.1
  parents : Few ip.parents ∧ ∀ p ∈ ip.parents, Short p

def ImportFits : ImportDesc → Prop
  | .named source names => Short source ∧ Few names ∧ ∀ n ∈ names, Short n.name
  | .namespace source bound => Short source ∧ Short bound.name

def eraseParam (p : Param) : Param :=
  { p with
    ty := p.ty.map eraseType
    default := p.default.map fun _ => .mk .nil p.nameSpan }

def ParamFits (p : Param) : Prop := Short p.name ∧ ∀ t ∈ p.ty, TypeFits t

def eraseSignature (withDebug : Bool) (s : Signature) : Signature :=
  { s with
    params := s.params.map eraseParam
    ret := s.ret.map eraseType
    localNames := if withDebug then s.localNames else []
    debugName := if withDebug then s.debugName else none
    nameSpan := none }

structure SignatureFits (withDebug : Bool) (s : Signature) : Prop where
  params : Few s.params ∧ ∀ p ∈ s.params, ParamFits p
  ret : ∀ t ∈ s.ret, TypeFits t
  owningClass : ∀ c ∈ s.owningClass, Short c
  localNames : withDebug = true → Few s.localNames ∧ ∀ l ∈ s.localNames, Short l.2
  debugName : withDebug = true → ∀ n ∈ s.debugName, Short n

def eraseTables (source : Option SourceInfo) (t : Tables) : Tables :=
  { t with
    consts := t.consts.map eraseConst
    classProtos := t.classProtos.map eraseClassProto
    typeConsts := t.typeConsts.map eraseType
    source := source }

structure TablesFit (x : Ext) (t : Tables) : Prop where
  code : Few t.code
  consts : Few t.consts ∧ ∀ v ∈ t.consts, ConstFits v
  classProtos : Few t.classProtos ∧ ∀ cp ∈ t.classProtos, ClassProtoFits x cp
  interfaceProtos : Few t.interfaceProtos ∧ ∀ ip ∈ t.interfaceProtos, InterfaceProtoFits ip
  imports : Few t.imports ∧ ∀ i ∈ t.imports, ImportFits i
  typeConsts : Few t.typeConsts ∧ ∀ ty ∈ t.typeConsts, TypeFits ty
  spans : Few t.spans
  upvalues : Few t.upvalues
  cellSlots : Few t.cellSlots
  name : ∀ n ∈ t.name, Short n

mutual

def eraseProto (withDebug : Bool) (source : Option SourceInfo) : FnProto → FnProto
  | .mk s t ps =>
    .mk (eraseSignature withDebug s) (eraseTables source t) (eraseProtos withDebug source ps)

def eraseProtos (withDebug : Bool) (source : Option SourceInfo) : List FnProto → List FnProto
  | [] => []
  | p :: ps => eraseProto withDebug source p :: eraseProtos withDebug source ps

end

mutual

def ProtoFits (x : Ext) (withDebug : Bool) : FnProto → Prop
  | .mk s t ps => SignatureFits withDebug s ∧ TablesFit x t ∧ Few ps ∧ ProtosFit x withDebug ps

def ProtosFit (x : Ext) (withDebug : Bool) : List FnProto → Prop
  | [] => True
  | p :: ps => ProtoFits x withDebug p ∧ ProtosFit x withDebug ps

end

def moduleSource (withDebug : Bool) (c : Chunk) : Option SourceInfo :=
  if withDebug then c.source else none

/-- What comes back of a module. -/
def erase (withDebug : Bool) (c : Chunk) : Chunk where
  toTables := eraseTables (moduleSource withDebug c) c.toTables
  protos := eraseProtos withDebug (moduleSource withDebug c) c.protos

/-- The module can be written: its constants are literals, its defaults are of the kinds that have a
form on the wire, what is lowered from text is what that gives, and all lengths fit. -/
structure Fits (x : Ext) (withDebug : Bool) (c : Chunk) : Prop where
  tables : TablesFit x c.toTables
  protos : Few c.protos ∧ ProtosFit x withDebug c.protos
  source : withDebug = true → ∀ s ∈ c.source, Short s.path ∧ Short s.text

end AScript.Bytecode.Aso
