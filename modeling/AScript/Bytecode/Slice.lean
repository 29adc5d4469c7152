import AScript.Bytecode.Chunk
import AScript.Lib.Closure

/-! Code slices: the definitions that others refer to (`vm/bcanalysis.rs`). -/

namespace AScript.Bytecode

open AScript.Lib AScript.Syntax

/-- A top-level binding that a slice can ship. -/
inductive TopDef
  | fn : FnProto → TopDef
  | const : Const → TopDef
  | computedConst : (start stop : Nat) → TopDef
  | «class»
  | interface : InterfaceProto → TopDef

namespace Chunk

/-- The instructions from a byte on, with operands, up to `stop` or an unknown byte. -/
def instructionsFrom (c : Chunk) : (fuel ip stop : Nat) → List (Op × Nat)
  | 0, _, _ => []
  | fuel + 1, ip, stop =>
    if ip < stop then
      match (c.code[ip]?).bind Op.fromU8 with
      | none => []
      | some op =>
        (op, if 2 ≤ op.operandWidth then c.readU16 (ip + 1) else 0) ::
          c.instructionsFrom fuel (ip + 1 + op.operandWidth) stop
    else []

def instructionsIn (c : Chunk) (start stop : Nat) : List (Op × Nat) :=
  c.instructionsFrom (stop - start) start stop

def instructions (c : Chunk) : List (Op × Nat) := c.instructionsIn 0 c.code.length

def nameAt (c : Chunk) (k : Nat) : Option String :=
  match c.consts[k]? with
  | some (.str name) => some name
  | _ => none

def getGlobal? (c : Chunk) : Op × Nat → Option String
  | (.getGlobal, k) => c.nameAt k
  | _ => none

end Chunk

mutual

def FnProto.globalNames : FnProto → List String
  | .mk _ t ps =>
    let c : Chunk := ⟨t, ps⟩
    c.instructions.filterMap c.getGlobal? ++ protosGlobalNames ps

def protosGlobalNames : List FnProto → List String
  | [] => []
  | p :: ps => p.globalNames ++ protosGlobalNames ps

end

/-- `collect_get_global_names`. -/
def collectGetGlobalNames (c : Chunk) : List String :=
  c.instructions.filterMap c.getGlobal? ++ protosGlobalNames c.protos

/-- `collect_range_refs`. -/
def collectRangeRefs (top : Chunk) (start stop : Nat) : List String :=
  (top.instructionsIn start stop).flatMap fun
    | (.getGlobal, k) => (top.nameAt k).toList
    | (.closure, k) =>
      match top.protos[k]? with
      | some p => collectGetGlobalNames p.chunk
      | none => []
    | _ => []

mutual

/-- `collect_type_named_refs`. -/
def collectTypeNamedRefs : Ty → List String
  | .named name => [name]
  | .optional t | .array t | .result t | .future t => collectTypeNamedRefs t
  | .map k v => collectTypeNamedRefs k ++ collectTypeNamedRefs v
  | .union s t => collectTypeNamedRefs s ++ collectTypeNamedRefs t
  | .tuple ts => collectTypesNamedRefs ts
  | .fnSig ps r => collectTypesNamedRefs ps ++ collectTypeNamedRefs r
  | .number | .int | .float | .string | .bool | .nil | .any | .fn | .object | .error
  | .param _ => []

def collectTypesNamedRefs : List Ty → List String
  | [] => []
  | t :: ts => collectTypeNamedRefs t ++ collectTypesNamedRefs ts

end

inductive GroupMember
  | superGlobal : String → GroupMember
  | closure : FnProto → GroupMember

inductive GroupError
  | protoIndexOutOfRange
  | notTopLevel
  | tooFewInstructions
  | superNotGlobal
  | noNameConstant
  | captures
  | memberIndexOutOfRange
  | memberCapturesLocal

def ClassProto.closures (cp : ClassProto) : Nat :=
  cp.defaultFields.length + cp.methodNames.length + cp.staticMethodNames.length

def decodeMember (top : Chunk) : Op × Nat → Except GroupError GroupMember
  | (.closure, k) =>
    match top.protos[k]? with
    | none => .error .memberIndexOutOfRange
    | some p => if p.chunk.upvalues.isEmpty then .ok (.closure p) else .error .memberCapturesLocal
  | _ => .error .captures

/-- `decode_class_group`. -/
def decodeClassGroup (top : Chunk) (run : List (Op × Nat)) (cp : ClassProto) :
    Except GroupError (List GroupMember × ClassProto) :=
  let expected := cp.closures + cp.hasSuper.toNat
  if run.length < expected then .error .tooFewInstructions
  else
    let group := run.drop (run.length - expected)
    if cp.hasSuper then
      match group with
      | (.getGlobal, k) :: group =>
        match top.nameAt k with
        | none => .error .noNameConstant
        | some name => do return (.superGlobal name :: (← group.mapM (decodeMember top)), cp)
      | _ => .error .superNotGlobal
    else do return (← group.mapM (decodeMember top), cp)

/-- `locate_class_group` from an instruction on, after the run before it. -/
def locateFrom (top : Chunk) (className : String) (run : List (Op × Nat)) :
    List (Op × Nat) → Except GroupError (List GroupMember × ClassProto)
  | [] => .error .notTopLevel
  | (op, k) :: is =>
    match op with
    | .closure | .getGlobal => locateFrom top className (run ++ [(op, k)]) is
    | .«class» =>
      match top.classProtos[k]? with
      | none => .error .protoIndexOutOfRange
      | some cp =>
        if cp.template.name = className then decodeClassGroup top run cp
        else locateFrom top className [] is
    | _ => locateFrom top className [] is

def locateClassGroup (top : Chunk) (className : String) :
    Except GroupError (List GroupMember × ClassProto) :=
  locateFrom top className [] top.instructions

def GroupMember.refs : GroupMember → List String
  | .superGlobal sup => [sup]
  | .closure p => collectGetGlobalNames p.chunk

def ClassProto.fieldTypes (cp : ClassProto) : List Ty := cp.template.fields.values.map (·.ty)

def Const.payloadTypes : Const → List Ty
  | .enum _ _ schemas => schemas.flatMap fun s => s.2.map Prod.snd
  | _ => []

/-- `collect_def_refs`. -/
def collectDefRefs (top : Chunk) (d : TopDef) (name : String) : List String :=
  match d with
  | .fn p => collectGetGlobalNames p.chunk
  | .computedConst start stop => collectRangeRefs top start stop
  | .«class» =>
    match locateClassGroup top name with
    | .ok (members, cp) => members.flatMap GroupMember.refs ++ collectTypesNamedRefs cp.fieldTypes
    | .error _ => []
  | .interface p => p.parents
  | .const v => collectTypesNamedRefs v.payloadTypes

def refsOf (top : Chunk) (defs : IndexMap String TopDef) (name : String) : List String :=
  match defs.get name with
  | some d => collectDefRefs top d name
  | none => []

/-- `compute_closure`. The stack of the code grows at its end. -/
def computeClosure (top : Chunk) (defs : IndexMap String TopDef) (roots : List String) :
    List String :=
  Closure.visit defs.keys (refsOf top defs) [] roots.reverse

inductive Chunk.ReadsGlobal : Chunk → String → Prop
  | here {c : Chunk} : (Op.getGlobal, k) ∈ c.instructions → c.nameAt k = some x → ReadsGlobal c x
  | nested {c : Chunk} : p ∈ c.protos → ReadsGlobal p.chunk x → ReadsGlobal c x

inductive Ty.Mentions (x : String) : Ty → Prop
  | named : Mentions x (.named x)
  | optional : Mentions x t → Mentions x (.optional t)
  | array : Mentions x t → Mentions x (.array t)
  | result : Mentions x t → Mentions x (.result t)
  | future : Mentions x t → Mentions x (.future t)
  | mapKey : Mentions x k → Mentions x (.map k v)
  | mapValue : Mentions x v → Mentions x (.map k v)
  | unionLeft : Mentions x s → Mentions x (.union s t)
  | unionRight : Mentions x t → Mentions x (.union s t)
  | tuple : t ∈ ts → Mentions x t → Mentions x (.tuple ts)
  | fnParam : t ∈ ts → Mentions x t → Mentions x (.fnSig ts r)
  | fnRet : Mentions x r → Mentions x (.fnSig ts r)

/-- The code of a class: the pushes before the `CLASS` that its definition binds. -/
structure ClassGroup (top : Chunk) (name : String) (superclass : Option String)
    (members : List FnProto) (cp : ClassProto) : Prop where
  template : cp.template.name = name
  count : members.length = cp.closures
  super : cp.hasSuper = superclass.isSome
  top_level : ∀ p ∈ members, p.chunk.upvalues = []
  code : ∃ before pushes closures k global after,
    top.instructions = before ++ (pushes ++
      (closures ++ (.«class», k) :: (.defineGlobal, global) :: after)) ∧
      top.classProtos[k]? = some cp ∧ top.nameAt global = some name ∧
        (superclass = none ∧ pushes = [] ∨
          ∃ x s, superclass = some x ∧ pushes = [(.getGlobal, s)] ∧ top.nameAt s = some x) ∧
          List.Forall₂ (fun i p => i.1 = .closure ∧ top.protos[i.2]? = some p) closures members ∧
            ∀ j, (Op.«class», j) ∈ before →
              ∃ cp', top.classProtos[j]? = some cp' ∧ cp'.template.name ≠ name

/-- What executing a definition reads. -/
inductive CodeReads (top : Chunk) (name : String) : TopDef → String → Prop
  | body : p.chunk.ReadsGlobal x → CodeReads top name (.fn p) x
  | initializer : (Op.getGlobal, k) ∈ top.instructionsIn start stop → top.nameAt k = some x →
      CodeReads top name (.computedConst start stop) x
  | initializerClosure : (Op.closure, k) ∈ top.instructionsIn start stop → top.protos[k]? = some p →
      p.chunk.ReadsGlobal x → CodeReads top name (.computedConst start stop) x
  | superclass : ClassGroup top name (some x) ps cp → CodeReads top name .«class» x
  | member : ClassGroup top name s ps cp → p ∈ ps → p.chunk.ReadsGlobal x →
      CodeReads top name .«class» x
  | field : ClassGroup top name s ps cp → t ∈ cp.fieldTypes → Ty.Mentions x t →
      CodeReads top name .«class» x
  | parent : x ∈ p.parents → CodeReads top name (.interface p) x

/-- What a slice keeps with a definition: the payload types of an enum too. -/
inductive Keeps (top : Chunk) (name : String) : TopDef → String → Prop
  | reads : CodeReads top name d x → Keeps top name d x
  | payload : t ∈ v.payloadTypes → Ty.Mentions x t → Keeps top name (.const v) x

/-- A set with the entries and, for each definition of it, the definitions it is related to. -/
structure CoversEntries (defs : IndexMap String TopDef) (rel : String → TopDef → String → Prop)
    (roots : List String) (S : String → Prop) : Prop where
  roots : ∀ x ∈ roots, S x
  step : ∀ n d x, S n → defs.get n = some d → rel n d x → x ∈ defs.keys → S x

end AScript.Bytecode
