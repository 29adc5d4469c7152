import AScript.Compile.Syntax

/-! Name resolution in the frame of a file (`syntax/resolve/mod.rs`). -/

namespace AScript.Compile

open AScript.Lib

inductive Resolution
  | «local» (slot : Nat)
  | global
  deriving DecidableEq

/-- One use of a name; an assignment to it may be refused. -/
structure NameUse where
  text : String
  resolution : Resolution
  immutable : Bool
  deriving DecidableEq

/-- Without a slot it is a global of the module. -/
structure Decl where
  name : String
  mutable : Bool
  slot : Option Nat
  deriving DecidableEq

structure Local where
  slot : Nat
  mutable : Bool

/-- `module_global_mutable`; the first declaration of a name decides. -/
abbrev ModuleGlobals := IndexMap String Bool

structure Resolver where
  scopes : List (IndexMap String Local)
  nextSlot : Nat

def resolveLocal (scopes : List (IndexMap String Local)) (name : String) : Option Local :=
  scopes.findSome? (·.get name)

def resolveName (globals : ModuleGlobals) (scopes : List (IndexMap String Local))
    (name : String) : NameUse :=
  match resolveLocal scopes name with
  | some l => ⟨name, .local l.slot, !l.mutable⟩
  | none => ⟨name, .global, globals.get name = some false⟩

mutual

def Expr.map (f : U → U') : Expr U → Expr U'
  | .literal l => .literal l
  | .nameRef x => .nameRef (f x)
  | .paren e => .paren (e.map f)
  | .unary op e => .unary op (e.map f)
  | .binary op l r => .binary op (l.map f) (r.map f)
  | .ternary c t e => .ternary (c.map f) (t.map f) (e.map f)
  | .assignName op x v => .assignName op (f x) (v.map f)
  | .assignMember op o n v => .assignMember op (o.map f) n (v.map f)
  | .assignIndex op o i v => .assignIndex op (o.map f) (i.map f) (v.map f)
  | .array es => .array (mapAll f es)
  | .index b i => .index (b.map f) (i.map f)
  | .member o n => .member (o.map f) n
  | .optMember o n => .optMember (o.map f) n
  | .call g es => .call (g.map f) (mapAll f es)

def mapAll (f : U → U') : List (Expr U) → List (Expr U')
  | [] => []
  | e :: es => e.map f :: mapAll f es

end

namespace Resolver

def atModuleTop (r : Resolver) : Bool := r.scopes.isEmpty

def pushScope (r : Resolver) : Resolver := { r with scopes := .empty :: r.scopes }

def popScope (r : Resolver) : Resolver := { r with scopes := r.scopes.tail }

/-- `declare_mut`, in the innermost scope. -/
def declareMut (r : Resolver) (b : Binder) : Decl × Resolver :=
  (⟨b.name, b.mutable, some r.nextSlot⟩,
    { scopes := r.scopes.modifyHead (·.insert b.name ⟨r.nextSlot, b.mutable⟩)
      nextSlot := r.nextSlot + 1 })

def declareBinding (globals : ModuleGlobals) (r : Resolver) (b : Binder) : Decl × Resolver :=
  if r.atModuleTop && globals.containsKey b.name then
    (⟨b.name, (globals.get b.name).getD false, none⟩, r)
  else r.declareMut b

def resolveExpr (globals : ModuleGlobals) (r : Resolver) (e : Expr String) : Expr NameUse :=
  e.map (resolveName globals r.scopes)

mutual

def resolveStmt (globals : ModuleGlobals) (r : Resolver) :
    Stmt String Binder → Stmt NameUse Decl × Resolver
  | .expr e => (.expr (resolveExpr globals r e), r)
  | .letStmt b init =>
    -- the initializer does not see the name
    let init := init.map (resolveExpr globals r)
    let (d, r) := r.declareBinding globals b
    (.letStmt d init, r)
  | .block b =>
    let (b, r) := resolveStmts globals r.pushScope b
    (.block b, r.popScope)
  | .ifThen c t =>
    let c := resolveExpr globals r c
    let (t, r) := resolveStmts globals r.pushScope t
    (.ifThen c t, r.popScope)
  | .ifElse c t e =>
    let c := resolveExpr globals r c
    let (t, r) := resolveStmts globals r.pushScope t
    let (e, r) := resolveStmts globals r.popScope.pushScope e
    (.ifElse c t e, r.popScope)
  | .elseIf c t e =>
    let c := resolveExpr globals r c
    let (t, r) := resolveStmts globals r.pushScope t
    let (e, r) := resolveStmt globals r.popScope e
    (.elseIf c t e, r)
  | .whileLoop c b =>
    let c := resolveExpr globals r c
    let (b, r) := resolveStmts globals r.pushScope b
    (.whileLoop c b, r.popScope)
  | .breakStmt => (.breakStmt, r)
  | .continueStmt => (.continueStmt, r)
  | .returnStmt e => (.returnStmt (e.map (resolveExpr globals r)), r)

def resolveStmts (globals : ModuleGlobals) (r : Resolver) :
    List (Stmt String Binder) → List (Stmt NameUse Decl) × Resolver
  | [] => ([], r)
  | s :: ss =>
    let (s, r) := resolveStmt globals r s
    let (ss, r) := resolveStmts globals r ss
    (s :: ss, r)

end

end Resolver

def collectModuleGlobals (p : Program) : ModuleGlobals :=
  p.foldl (fun globals s =>
    match s with
    | .letStmt b _ =>
      if globals.containsKey b.name then globals else globals.insert b.name b.mutable
    | _ => globals) .empty

/-- The program with its names resolved, and the slots of its frame. -/
def resolve (p : Program) : List (Stmt NameUse Decl) × Nat :=
  let (p, r) := Resolver.resolveStmts (collectModuleGlobals p) ⟨[], 0⟩ p
  (p, r.nextSlot)

end AScript.Compile
