import Mathlib.Data.List.Sort
import AScript.Syntax.Ast

/-! The checker's types and three-valued assignability (`check/infer/ty.rs`, `table.rs`). -/

namespace AScript.Check

open AScript.Syntax

inductive LitVal
  | number
  | string
  | bool
  | nil
  deriving DecidableEq

inductive Prim
  | number
  | int
  | float
  | string
  | bool
  | bytes
  | object
  | regex
  | error
  | fn
  deriving DecidableEq

/-- `CheckTy`. Classes, enums and interfaces are indices into the table. -/
inductive CheckTy
  | any
  | never
  | prim : Prim → CheckTy
  | nil
  | array : CheckTy → CheckTy
  | map : CheckTy → CheckTy → CheckTy
  | tuple : List CheckTy → CheckTy
  | result : CheckTy → CheckTy
  | future : CheckTy → CheckTy
  | union : List CheckTy → CheckTy
  | «class» : Nat → CheckTy
  | enum : Nat → CheckTy
  | enumVariant : Nat → String → CheckTy
  | literal : LitVal → CheckTy
  | var : Nat → (bound : Option CheckTy) → CheckTy
  | fnSig : List CheckTy → CheckTy → CheckTy
  | classApp : Nat → List CheckTy → CheckTy
  | enumApp : Nat → List CheckTy → CheckTy
  | interface : Nat → CheckTy

inductive Compat3
  | yes
  | no
  | unknown
  deriving DecidableEq

structure MethodSig where
  params : List CheckTy
  ret : CheckTy

structure ClassInfo where
  name : String
  parent : Option Nat
  methodSigs : List (String × MethodSig)

structure InterfaceInfo where
  name : String
  methods : List (String × MethodSig)
  supers : List Nat

/-- The symbol table; a name is looked up to its last declaration. -/
structure Table where
  classes : List ClassInfo
  enums : List String
  interfaces : List InterfaceInfo
  classByName : String → Option Nat

namespace Table

variable (tbl : Table)

def parent (c : Nat) : Option Nat := (tbl.classes[c]?).bind (·.parent)

def classFuel : Nat := tbl.classes.length + 1

def isSubclassFrom : Nat → List Nat → Nat → Nat → Bool
  | 0, _, _, _ => false
  | fuel + 1, visited, child, ancestor =>
    if child = ancestor then true
    else if child ∈ visited then false
    else
      match tbl.parent child with
      | none => false
      | some p => isSubclassFrom fuel (child :: visited) p ancestor

def isSubclass (child ancestor : Nat) : Bool :=
  tbl.isSubclassFrom (tbl.classFuel + 1) [] child ancestor

def methodSigFrom : Nat → List Nat → Nat → String → Option MethodSig
  | 0, _, _, _ => none
  | fuel + 1, visited, c, name =>
    if c ∈ visited then none
    else do
      let info ← tbl.classes[c]?
      match info.methodSigs.find? (·.1 == name) with
      | some (_, sig) => some sig
      | none => methodSigFrom fuel (c :: visited) (← info.parent) name

def methodSig (c : Nat) (name : String) : Option MethodSig :=
  tbl.methodSigFrom (tbl.classFuel + 1) [] c name

def interfaceMethodsFrom : Nat → List Nat → List Nat → List (String × MethodSig) →
    List (String × MethodSig)
  | 0, _, _, out => out
  | _ + 1, _, [], out => out
  | fuel + 1, visited, i :: stack, out =>
    if i ∈ visited then interfaceMethodsFrom fuel visited stack out
    else
      match tbl.interfaces[i]? with
      | none => interfaceMethodsFrom fuel (i :: visited) stack out
      | some info =>
        let fresh := info.methods.filter fun m => !out.any fun o => o.1 == m.1
        interfaceMethodsFrom fuel (i :: visited) (info.supers.reverse ++ stack) (out ++ fresh)

def interfaceAllMethods (i : Nat) : List (String × MethodSig) :=
  tbl.interfaceMethodsFrom
    (2 + (tbl.interfaces.map fun info => info.supers.length + 1).sum) [] [i] []

end Table

namespace Compat3

/-- `meet_compat` and `meet3`. -/
def meet : Compat3 → Compat3 → Compat3
  | .no, _ | _, .no => .no
  | .unknown, _ | _, .unknown => .unknown
  | .yes, .yes => .yes

def toUnion (vs : List Compat3) : Compat3 :=
  if .yes ∈ vs then .yes
  else if .unknown ∉ vs ∧ vs ≠ [] then .no
  else .unknown

def ofUnion (vs : List Compat3) : Compat3 :=
  if .no ∈ vs then .no
  else if .unknown ∉ vs ∧ vs ≠ [] then .yes
  else .unknown

end Compat3

namespace CheckTy

def widen : CheckTy → CheckTy
  | .literal .number => .prim .number
  | .literal .string => .prim .string
  | .literal .bool => .prim .bool
  | .literal .nil => .nil
  | .enumVariant e _ => .enum e
  | .never => .any
  | .var _ _ => .any
  | t => t

def unliteral : CheckTy → CheckTy
  | .literal l => widen (.literal l)
  | t => t

def isPrim : CheckTy → Bool
  | .prim _ => true
  | _ => false

def isConcreteCtor : CheckTy → Bool
  | .array _ | .map _ _ | .tuple _ | .future _ | .result _ => true
  | _ => false

def isApp : CheckTy → Bool
  | .classApp _ _ | .enumApp _ _ => true
  | _ => false

def isGradual : CheckTy → Bool
  | .any | .var _ _ => true
  | _ => false

def isNilTy : CheckTy → Bool
  | .nil => true
  | _ => false

section Rules

variable (tbl : Table) (rec : CheckTy → CheckTy → Compat3) (conf : CheckTy → Nat → Compat3)

def primRule (p q : Prim) : Compat3 :=
  match p, q with
  | .int, .number | .float, .number => .yes
  | .number, .int | .number, .float => .unknown
  | p, q => if p = q then .yes else .no

def nilRule : CheckTy → Compat3
  | .nil => .yes
  | .union ms => if ms.any isNilTy then .yes else .no
  | _ => .no

def ruleInterface (s d : CheckTy) : Option Compat3 :=
  match s, d with
  | s, .interface i => some (conf s i)
  | .interface _, _ => some .unknown
  | _, _ => none

def invariantPair (s d : CheckTy) : Compat3 :=
  if s.isGradual || d.isGradual then .unknown
  else
    match rec s d, rec d s with
    | .no, .no => .no
    | .yes, .yes => .yes
    | _, _ => .unknown

def invariantArgs (sargs dargs : List CheckTy) : Compat3 :=
  ((sargs.zip dargs).map fun p => invariantPair rec p.1 p.2).foldl .meet .yes

def ruleApp (s d : CheckTy) : Option Compat3 :=
  match s, d with
  | .classApp c sargs, .classApp e dargs | .enumApp c sargs, .enumApp e dargs =>
    some (if c ≠ e ∨ sargs.length ≠ dargs.length then .no else invariantArgs rec sargs dargs)
  | .classApp _ _, .prim .object => some .unknown
  | .classApp c _, .class e | .class c, .classApp e _ =>
    some (if c = e ∨ tbl.isSubclass c e ∨ tbl.isSubclass e c then .unknown else .no)
  | .enumApp c _, .enum e | .enum c, .enumApp e _ => some (if c = e then .unknown else .no)
  | s, d =>
    if s.isApp && (d.isPrim || d.isConcreteCtor) || (s.isPrim || s.isConcreteCtor) && d.isApp then
      some .no
    else none

def fnSigArgs (sps dps : List CheckTy) (sret dret : CheckTy) : Compat3 :=
  (((sps.zip dps).map fun p => rec p.2 p.1).foldl Compat3.meet .yes).meet (rec sret dret)

def ruleFnSig (s d : CheckTy) : Option Compat3 :=
  match s, d with
  | .fnSig sps sret, .fnSig dps dret =>
    some (if sps.length ≠ dps.length then .no else fnSigArgs rec sps dps sret dret)
  | .fnSig _ _, .prim .fn | .prim .fn, .fnSig _ _ => some .unknown
  | .fnSig _ _, d => if d.isPrim || d.isConcreteCtor then some .no else none
  | s, .fnSig _ _ => if s.isPrim || s.isConcreteCtor then some .no else none
  | _, _ => none

def ruleClass (s d : CheckTy) : Option Compat3 :=
  match s, d with
  | .class c, .class e => some (if tbl.isSubclass c e then .yes else .no)
  | .class _, .prim .object => some .unknown
  | .class _, .prim _ => some .no
  | .class _, _ => some .unknown
  | .prim .object, .class _ => some .unknown
  | .prim _, .class _ => some .no
  | _, .class _ => some .unknown
  | _, _ => none

def ruleEnum (s d : CheckTy) : Option Compat3 :=
  match s, d with
  | .enumVariant e v, .enumVariant e' v' => some (if e = e' ∧ v = v' then .yes else .no)
  | .enumVariant e _, .enum e' | .enum e, .enum e' => some (if e = e' then .yes else .no)
  | .enum e, .enumVariant e' _ => some (if e = e' then .unknown else .no)
  | .enum _, .prim _ | .enumVariant _ _, .prim _ => some .no
  | .prim _, .enum _ | .prim _, .enumVariant _ _ => some .no
  | _, _ => none

def ruleCtor (s d : CheckTy) : Option Compat3 :=
  match s, d with
  | .array s, .array d | .future s, .future d | .result s, .result d => some (rec s d)
  | .map sk sv, .map dk dv => some ((rec sk dk).meet (rec sv dv))
  | .tuple ss, .tuple ds =>
    some (if ss.length ≠ ds.length then .no
      else ((ss.zip ds).map fun p => rec p.1 p.2).foldl .meet .yes)
  | s, d =>
    if s.isConcreteCtor && (d.isPrim || d.isConcreteCtor) ||
        (s.isPrim || s.isConcreteCtor) && d.isConcreteCtor then some .no
    else none

def flatRules (s d : CheckTy) : Compat3 :=
  match s, d with
  | .prim p, .prim q => primRule p q
  | s, d =>
    (ruleInterface conf s d <|> ruleApp tbl rec s d <|> ruleFnSig rec s d <|> ruleClass tbl s d <|>
      ruleEnum s d <|> ruleCtor rec s d).getD .unknown

def rules (s d : CheckTy) : Compat3 :=
  match s, d with
  | .nil, d => nilRule d
  | s, .union ds => .toUnion (ds.map (rec s))
  | .union ss, d => .ofUnion (ss.map fun m => rec m d)
  | s, d => flatRules tbl rec conf s d

def assignableStep (s d : CheckTy) : Compat3 :=
  match s, d with
  | .any, _ | _, .any => .yes
  | s, .var _ (some (.interface i)) => conf s i
  | _, .var _ _ => .unknown
  | .var _ _, _ => .unknown
  | .never, _ => .yes
  | _, .never => .unknown
  | s, d => rules tbl rec conf s.unliteral d.unliteral

end Rules

theorem assignableStep_any {rec : CheckTy → CheckTy → Compat3} (s : CheckTy) :
    assignableStep tbl rec conf s .any = .yes := by
  unfold assignableStep
  split <;> first | rfl | contradiction

theorem assignableStep_rules {rec : CheckTy → CheckTy → Compat3} (hs : s.isGradual = false)
    (hd : d.isGradual = false) (hs' : s ≠ .never) (hd' : d ≠ .never) :
    assignableStep tbl rec conf s d = rules tbl rec conf s.unliteral d.unliteral := by
  unfold assignableStep
  split
  · cases hs
  · cases hd
  · cases hd
  · cases hd
  · cases hs
  · exact absurd rfl hs'
  · exact absurd rfl hd'
  · rfl

/-- `assignable_depth`, by how many levels are left before the cap. -/
def assignableDepth (tbl : Table) (conf : CheckTy → Nat → Compat3) :
    Nat → CheckTy → CheckTy → Compat3
  | 0, _, _ => .unknown
  | left + 1, s, d => assignableStep tbl (assignableDepth tbl conf left) conf s d

def typeDepthCap : Nat := 8

def componentMatch (rec : CheckTy → CheckTy → Compat3) (a b : CheckTy) : Compat3 :=
  match a.widen, b.widen with
  | .any, _ | _, .any => .unknown
  | _, _ =>
    match rec a b, rec b a with
    | .no, _ | _, .no => .no
    | .yes, .yes => .yes
    | _, _ => .unknown

def methodSigCompat (rec : CheckTy → CheckTy → Compat3) (sig req : MethodSig) : Compat3 :=
  ((sig.params.zip req.params).map fun p => componentMatch rec p.1 p.2).foldl .meet
    (componentMatch rec sig.ret req.ret)

/-- `conforms`, over a comparison of signature components. -/
def conforms (tbl : Table) (rec : CheckTy → CheckTy → Compat3) (t : CheckTy) (i : Nat) : Compat3 :=
  match t.widen with
  | .class c | .classApp c _ =>
    let verdicts := (tbl.interfaceAllMethods i).map fun m =>
      match tbl.methodSig c m.1 with
      | none => .no
      | some sig => methodSigCompat rec sig m.2
    verdicts.foldl .meet .yes
  | _ => .unknown

def conformsWithin (tbl : Table) : Nat → CheckTy → Nat → Compat3
  | 0, _, _ => .unknown
  | n + 1, t, i =>
    conforms tbl (assignableDepth tbl (conformsWithin tbl n) (typeDepthCap + 1)) t i

/-- `assignable`. Signatures may lead through interfaces without end, so how far they are
followed is a parameter; a run of the code that returns followed them some finite way. -/
def assignable (tbl : Table) (n : Nat) (s d : CheckTy) : Compat3 :=
  assignableDepth tbl (conformsWithin tbl n) (typeDepthCap + 1) s d

mutual

def flatten : CheckTy → List CheckTy
  | .union ms => flattenAll ms
  | .never => []
  | .literal l => [widen (.literal l)]
  | .enumVariant e _ => [.enum e]
  | t => [t]

def flattenAll : List CheckTy → List CheckTy
  | [] => []
  | m :: ms => flattenAll ms ++ flatten m

end

def discriminantOrder : CheckTy → Nat
  | .any => 0
  | .never => 1
  | .prim .number => 2
  | .prim .int => 3
  | .prim .float => 4
  | .prim .string => 5
  | .prim .bool => 6
  | .nil => 7
  | .prim .bytes => 8
  | .prim .object => 9
  | .prim .regex => 10
  | .prim .error => 11
  | .prim .fn => 12
  | .array _ => 13
  | .map _ _ => 14
  | .tuple _ => 15
  | .result _ => 16
  | .future _ => 17
  | .union _ => 18
  | .class _ => 19
  | .enum _ => 20
  | .enumVariant _ _ => 21
  | .literal _ => 22
  | .var _ _ => 23
  | .fnSig _ _ => 24
  | .classApp _ _ => 25
  | .enumApp _ _ => 26
  | .interface _ => 27

def secondaryKey : CheckTy → Nat
  | .class i | .enum i | .enumVariant i _ | .classApp i _ | .enumApp i _ | .interface i
  | .var i _ => i
  | _ => 0

def memberLe (a b : CheckTy) : Bool :=
  a.discriminantOrder < b.discriminantOrder ||
    a.discriminantOrder == b.discriminantOrder && a.secondaryKey ≤ b.secondaryKey

mutual

/-- `PartialEq for CheckTy`. -/
def beq : CheckTy → CheckTy → Bool
  | .any, .any | .never, .never | .nil, .nil => true
  | .prim p, .prim q => p = q
  | .array s, .array d | .result s, .result d | .future s, .future d => beq s d
  | .map sk sv, .map dk dv => beq sk dk && beq sv dv
  | .tuple ss, .tuple ds | .union ss, .union ds => beqs ss ds
  | .class i, .class j | .enum i, .enum j | .interface i, .interface j => i == j
  | .enumVariant i v, .enumVariant j w => i == j && v == w
  | .literal l, .literal m => l = m
  | .var i none, .var j none => i == j
  | .var i (some b), .var j (some c) => i == j && beq b c
  | .fnSig sps sret, .fnSig dps dret => beqs sps dps && beq sret dret
  | .classApp i ss, .classApp j ds | .enumApp i ss, .enumApp j ds => i == j && beqs ss ds
  | _, _ => false

def beqs : List CheckTy → List CheckTy → Bool
  | [], [] => true
  | s :: ss, d :: ds => beq s d && beqs ss ds
  | _, _ => false

end

def dedupFrom (t : CheckTy) : List CheckTy → List CheckTy
  | [] => [t]
  | u :: ts => if beq t u then dedupFrom t ts else t :: dedupFrom u ts

/-- `Vec::dedup`: neighbours only. -/
def dedup : List CheckTy → List CheckTy
  | [] => []
  | t :: ts => dedupFrom t ts

def unionWidthCap : Nat := 8

def normalize : CheckTy → CheckTy
  | .union ms =>
    let flat := flattenAll ms
    if flat.any isGradual then .any
    else
      match dedup (flat.insertionSort fun a b => memberLe a b) with
      | [] => .never
      | [t] => t
      | ts => if ts.length > unionWidthCap then .any else .union ts
  | t => t

end CheckTy
end AScript.Check
