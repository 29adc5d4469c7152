import AScript.Compile.Slots
import AScript.Compile.Engine

namespace AScript.Compile

open AScript.Lib AScript.Bytecode

variable {h : Host}

def ScopeMatch (locals : List h.V) (sc : Scope) (scope : IndexMap String (Binding h.V)) : Prop :=
  ∀ x, scope.get x = (sc.get x).map fun l => ⟨locals.getD l.slot h.nil, l.mutable⟩

def ModuleMatch (globals : IndexMap String (Globals.GlobalSlot h.V))
    (scope : IndexMap String (Binding h.V)) : Prop :=
  ∀ x, scope.get x = (globals.get x).map fun g => ⟨g.value, g.mutable⟩

abbrev InnerMatch (locals : List h.V) : List Scope → List (IndexMap String (Binding h.V)) → Prop :=
  List.Forall₂ (ScopeMatch locals)

structure Matches (slots : Nat) (defined : List String) (scopes : List Scope) (s : State h)
    (locals : List h.V) (w : Vars h) : Prop where
  world : s.world = w.host
  length : locals.length = slots
  known : ∀ x ∈ defined, w.globals.get x ≠ none
  env : ∃ inner module, s.env = inner ++ [module, globalEnv h] ∧
    InnerMatch locals scopes inner ∧ ModuleMatch w.globals module

/-- A name whose assignment means the same in both engines. -/
def Assignable (x : NameUse) : Prop := x.resolution = .global → x.text ∉ Globals.builtinNames

theorem get_globalEnv (x : String) :
    (globalEnv h).get x =
      if x ∈ Globals.builtinNames then some ⟨h.builtin x, false⟩ else none := by
  have hall : ∀ (names : List String) (m : IndexMap String (Binding h.V)) (x : String),
      ((names.map fun x => (x, (⟨h.builtin x, false⟩ : Binding h.V))).foldl
        (fun m p => m.insert p.1 p.2) m).get x =
        if x ∈ names then some ⟨h.builtin x, false⟩ else m.get x := by
    intro names
    induction names with
    | nil => intro m x; rfl
    | cons y names ih =>
      intro m x
      rw [List.map_cons, List.foldl_cons, ih, IndexMap.get_insert]
      by_cases hx : x ∈ names
      · rw [if_pos hx, if_pos (.tail _ hx)]
      · rw [if_neg hx]
        by_cases hxy : x = y
        · rw [if_pos hxy, if_pos (hxy ▸ .head _), hxy]
        · rw [if_neg hxy, if_neg fun hm => (List.mem_cons.mp hm).elim hxy hx]
  exact hall _ _ x

theorem getD_set_self {locals : List h.V} (hk : k < locals.length) (v : h.V) :
    (locals.set k v).getD k h.nil = v := by
  rw [List.getD_eq_getElem?_getD, List.getElem?_set_self hk, Option.getD_some]

theorem getD_set_ne (locals : List h.V) (hk : k ≠ j) (v : h.V) :
    (locals.set k v).getD j h.nil = locals.getD j h.nil := by
  rw [List.getD_eq_getElem?_getD, List.getElem?_set_ne hk, ← List.getD_eq_getElem?_getD]

namespace ScopeMatch

variable {locals : List h.V} {sc sc' : Scope} {scope : IndexMap String (Binding h.V)}

theorem empty (locals : List h.V) : ScopeMatch locals .empty .empty := fun _ => rfl

theorem set_of_ne (hm : ScopeMatch locals sc scope) (hne : ∀ y m, sc.get y = some m → k ≠ m.slot)
    (v : h.V) : ScopeMatch (locals.set k v) sc scope := by
  intro y
  rw [hm y]
  cases hy : sc.get y with
  | none => rfl
  | some m => rw [Option.map_some, Option.map_some, getD_set_ne locals (hne y m hy)]

theorem insert (hm : ScopeMatch locals sc scope) {l : Local}
    (hsc : ∀ y, sc'.get y = if y = x then some l else sc.get y)
    (hne : ∀ y m, y ≠ x → sc.get y = some m → l.slot ≠ m.slot) (hk : l.slot < locals.length)
    (v : h.V) : ScopeMatch (locals.set l.slot v) sc' (scope.insert x ⟨v, l.mutable⟩) := by
  intro y
  rw [hsc y, IndexMap.get_insert]
  by_cases hy : y = x
  · rw [if_pos hy, if_pos hy, Option.map_some, getD_set_self hk]
  · rw [if_neg hy, if_neg hy, hm y]
    cases hg : sc.get y with
    | none => rfl
    | some m => rw [Option.map_some, Option.map_some, getD_set_ne locals (hne y m hy hg)]

end ScopeMatch

namespace InnerMatch

variable {locals : List h.V} {scopes : List Scope}
    {inner base : List (IndexMap String (Binding h.V))}

theorem set_of_ne (hm : InnerMatch locals scopes inner)
    (hne : ∀ sc ∈ scopes, ∀ y m, sc.get y = some m → k ≠ m.slot) (v : h.V) :
    InnerMatch (locals.set k v) scopes inner := by
  induction hm with
  | nil => exact .nil
  | cons hm _ ih =>
    exact .cons (hm.set_of_ne (hne _ (.head _)) v) (ih fun sc hsc => hne sc (.tail _ hsc))

theorem get (hm : InnerMatch locals scopes inner) (x : String) :
    (inner ++ base).findSome? (·.get x) =
      match resolveLocal scopes x with
      | some l => some ⟨locals.getD l.slot h.nil, l.mutable⟩
      | none => base.findSome? (·.get x) := by
  induction hm with
  | nil => rfl
  | @cons sc scope scs inner hm _ ih =>
    rw [List.cons_append, List.findSome?_cons, hm x]
    simp only [resolveLocal, List.findSome?_cons]
    cases hx : sc.get x with
    | some l => rfl
    | none => exact ih

theorem assign_global (hm : InnerMatch locals scopes inner) (hx : resolveLocal scopes x = none)
    (base : List (IndexMap String (Binding h.V))) (v : h.V) :
    Environment.assign x v (inner ++ base) =
      (Environment.assign x v base).map (inner ++ ·) := by
  induction hm with
  | nil => cases hb : Environment.assign x v base <;> simp [hb, Except.map]
  | @cons sc scope scs inner hm _ ih =>
    simp only [resolveLocal, List.findSome?_cons] at hx
    cases hsc : sc.get x with
    | some l =>
      simp only [hsc] at hx
      cases hx
    | none =>
      simp only [hsc] at hx
      have hn : scope.get x = none := by rw [hm x, hsc]; rfl
      rw [List.cons_append, Environment.assign]
      simp only [hn, ih hx]
      cases Environment.assign x v base <;> rfl

theorem assign_immutable (hm : InnerMatch locals scopes inner)
    (hx : resolveLocal scopes x = some l) (hl : l.mutable = false) (v : h.V) :
    Environment.assign x v (inner ++ base) = .error .immutable := by
  induction hm with
  | nil => cases hx
  | @cons sc scope scs inner hm _ ih =>
    simp only [resolveLocal, List.findSome?_cons] at hx
    rw [List.cons_append, Environment.assign]
    have hg := hm x
    cases hsc : sc.get x with
    | some l' =>
      simp only [hsc] at hx hg
      cases hx
      simp only [hg, Option.map_some, hl, Bool.false_eq_true, if_false]
    | none =>
      simp only [hsc] at hx hg
      simp only [hg, Option.map_none, ih hx, Except.map]

theorem mem_of_resolveLocal (hx : resolveLocal scopes x = some l) :
    ∃ sc ∈ scopes, sc.get x = some l := by
  obtain ⟨sc, hsc, hg⟩ := List.exists_of_findSome?_eq_some hx
  exact ⟨sc, hsc, hg⟩

theorem assign_local (hm : InnerMatch locals scopes inner) (ha : Resolver.Apart ⟨scopes, n⟩)
    (hx : resolveLocal scopes x = some l) (hl : l.mutable = true) (hk : l.slot < locals.length)
    (v : h.V) : ∃ inner', Environment.assign x v (inner ++ base) = .ok (inner' ++ base) ∧
      InnerMatch (locals.set l.slot v) scopes inner' := by
  induction hm with
  | nil => cases hx
  | @cons sc scope scs inner hm hms ih =>
    obtain ⟨hapart, -⟩ := List.pairwise_cons.mp ha.acrossScopes
    simp only [resolveLocal, List.findSome?_cons] at hx
    rw [List.cons_append, Environment.assign]
    have hg := hm x
    cases hsc : sc.get x with
    | some l' =>
      simp only [hsc] at hx hg
      cases hx
      refine ⟨scope.insert x ⟨v, l.mutable⟩ :: inner, ?_, .cons (hm.insert ?_ ?_ hk v) ?_⟩
      · simp only [hg, Option.map_some, hl, if_true, List.cons_append]
      · intro y
        split
        · next hy => rw [hy, hsc]
        · rfl
      · exact fun y m hy hym he => hy (ha.inScope sc (.head _) x y l m hsc hym he).symm
      · exact InnerMatch.set_of_ne hms (fun sc' hsc' y m hy => hapart sc' hsc' x y l m hsc hy) v
    | none =>
      simp only [hsc] at hx hg
      obtain ⟨inner', he, hm'⟩ := ih ha.popScope hx
      obtain ⟨sc', hsc', hl'⟩ := mem_of_resolveLocal hx
      refine ⟨scope :: inner', ?_, .cons (hm.set_of_ne (fun y m hy he => ?_) v) hm'⟩
      · simp only [hg, Option.map_none, he, Except.map, List.cons_append]
      · exact hapart sc' hsc' y x m l hy hl' he.symm

end InnerMatch

namespace Matches

variable {slots : Nat} {defined : List String} {scopes : List Scope} {s : State h}
    {locals : List h.V} {w : Vars h}

theorem get_local (hm : Matches slots defined scopes s locals w)
    (hx : resolveLocal scopes x = some l) :
    s.env.get x = some (locals.getD l.slot h.nil) := by
  obtain ⟨inner, module, he, hi, -⟩ := hm.env
  rw [Environment.get, he, hi.get x, hx]
  rfl

theorem get_global (hm : Matches slots defined scopes s locals w)
    (hx : resolveLocal scopes x = none) :
    (match s.env.get x with
      | some v => .ok v
      | none => .error (h.panic (undefinedVariable x))) = Engine.getGlobal w x := by
  obtain ⟨inner, module, he, hi, hg⟩ := hm.env
  rw [Environment.get, he, hi.get x, hx]
  simp only [List.findSome?_cons, List.findSome?_nil, hg x, get_globalEnv, Engine.getGlobal]
  cases w.globals.get x with
  | some g => rfl
  | none =>
    by_cases hb : x ∈ Globals.builtinNames
    · simp only [if_pos hb, Option.map_none, Option.map_some]
    · simp only [if_neg hb, Option.map_none]

theorem assign_immutable (hm : Matches slots defined scopes s locals w)
    (hx : resolveLocal scopes x = some l)
    (hl : l.mutable = false) (v : h.V) : s.env.assign x v = .error .immutable := by
  obtain ⟨inner, module, he, hi, -⟩ := hm.env
  rw [he, hi.assign_immutable hx hl]

theorem assign_local (hm : Matches slots defined scopes s locals w)
    (ha : Resolver.Apart ⟨scopes, n⟩)
    (hx : resolveLocal scopes x = some l) (hl : l.mutable = true) (hk : l.slot < slots)
    (v : h.V) : ∃ env, s.env.assign x v = .ok env ∧
      Matches slots defined scopes { s with env } (locals.set l.slot v) w := by
  obtain ⟨inner, module, he, hi, hg⟩ := hm.env
  obtain ⟨inner', ha', hi'⟩ := hi.assign_local ha hx hl (hm.length ▸ hk) v
  exact ⟨inner' ++ [module, globalEnv h], by rw [he, ha'], hm.world,
    (List.length_set ..).trans hm.length, hm.known, inner', module, rfl, hi', hg⟩

theorem assign_global (hm : Matches slots defined scopes s locals w)
    (hx : resolveLocal scopes x = none)
    (hb : x ∉ Globals.builtinNames) (v : h.V) :
    (∃ env w', s.env.assign x v = .ok env ∧ Engine.setGlobal w x v = .ok w' ∧
      Matches slots defined scopes { s with env } locals w') ∨
    (s.env.assign x v = .error .immutable ∧
      Engine.setGlobal w x v = .error (h.panic (cannotAssignImmutable x))) ∨
    (s.env.assign x v = .error .undefined ∧
      Engine.setGlobal w x v = .error (h.panic (cannotAssignUndefined x))) := by
  obtain ⟨inner, module, he, hi, hg⟩ := hm.env
  have hbase := hi.assign_global hx [module, globalEnv h] v
  have hget := hg x
  rw [he, hbase, Engine.setGlobal]
  simp only [Environment.assign]
  cases hw : w.globals.get x with
  | none =>
    rw [hw] at hget
    simp only [hget, Option.map_none, get_globalEnv, if_neg hb]
    exact .inr (.inr ⟨rfl, trivial⟩)
  | some g =>
    obtain ⟨old, mutable⟩ := g
    rw [hw] at hget
    simp only [hget, Option.map_some]
    cases mutable with
    | false => exact .inr (.inl ⟨rfl, rfl⟩)
    | true =>
      refine .inl ⟨_, _, rfl, rfl, hm.world, hm.length,
        fun y hy => ?_, inner, module.insert x ⟨v, true⟩, rfl, hi, fun y => ?_⟩
      · dsimp only
        rw [IndexMap.get_insert]
        split
        · exact Option.some_ne_none _
        · exact hm.known y hy
      · dsimp only
        rw [IndexMap.get_insert, IndexMap.get_insert]
        split
        · rfl
        · exact hg y

theorem child (hm : Matches slots defined scopes s locals w) :
    Matches slots defined (.empty :: scopes) { s with env := s.env.child } locals w := by
  obtain ⟨inner, module, he, hi, hg⟩ := hm.env
  exact ⟨hm.world, hm.length, hm.known, .empty :: inner, module, by rw [he]; rfl,
    .cons (.empty locals) hi, hg⟩

theorem tail (hm : Matches slots defined (sc :: scopes) s locals w) :
    Matches slots defined scopes { s with env := s.env.tail } locals w := by
  obtain ⟨inner, module, he, hi, hg⟩ := hm.env
  cases hi with
  | cons _ hi => exact ⟨hm.world, hm.length, hm.known, _, module, by rw [he]; rfl, hi, hg⟩

theorem setWorld (hm : Matches slots defined scopes s locals w) (world : h.W) :
    Matches slots defined scopes { s with world } locals { w with host := world } :=
  ⟨rfl, hm.length, hm.known, hm.env⟩

theorem define_local (hm : Matches slots defined (sc :: scopes) s locals w)
    (ha : Resolver.Apart ⟨sc :: scopes, n⟩) (hx : sc.get x = none) (hk : n < slots)
    (v : h.V) (mutable : Bool) : ∃ env, s.env.define x v mutable = .ok env ∧
      Matches slots defined (sc.insert x ⟨n, mutable⟩ :: scopes) { s with env }
        (locals.set n v) w := by
  obtain ⟨inner, module, he, hi, hg⟩ := hm.env
  have hbelow : ∀ sc' ∈ sc :: scopes, ∀ y m, sc'.get y = some m → n ≠ m.slot :=
    fun sc' hsc y m hy hn => absurd (ha.below sc' hsc y m hy) (hn ▸ Nat.lt_irrefl _)
  cases hi with
  | @cons _ scope _ inner hs hi =>
    have hnew : scope.containsKey x = false := by
      rw [Bool.eq_false_iff, ne_eq, IndexMap.containsKey_iff, ← IndexMap.isSome_get_iff, hs x, hx]
      exact Bool.false_ne_true
    have hs' : ScopeMatch (locals.set n v) (sc.insert x ⟨n, mutable⟩)
        (scope.insert x ⟨v, mutable⟩) :=
      ScopeMatch.insert (l := ⟨n, mutable⟩) hs (fun y => sc.get_insert x y _)
        (fun y m _ hy => hbelow sc (.head _) y m hy) (hm.length ▸ hk) v
    refine ⟨scope.insert x ⟨v, mutable⟩ :: (inner ++ [module, globalEnv h]), ?_, hm.world,
      (List.length_set ..).trans hm.length, hm.known, _ :: inner, module, rfl, .cons hs' ?_, hg⟩
    · rw [he, List.cons_append, Environment.define, hnew]
      rfl
    · exact InnerMatch.set_of_ne hi (fun sc' hsc => hbelow sc' (.tail _ hsc)) v

theorem define_global (hm : Matches slots defined [] s locals w) (x : String) (v : h.V)
    (mutable : Bool) :
    (w.globals.get x = none ∧ ∃ env w', s.env.define x v mutable = .ok env ∧
      Engine.defineGlobal w x v mutable = .ok w' ∧
      Matches slots (x :: defined) [] { s with env } locals w') ∨
    ∀ m, s.env.define x v mutable = .error (alreadyDefined x) ∧
      Engine.defineGlobal w x v m = .error (h.panic (alreadyDefined x)) := by
  obtain ⟨inner, module, he, hi, hg⟩ := hm.env
  cases hi with
  | nil =>
    have hkey : module.containsKey x = w.globals.containsKey x := by
      rw [Bool.eq_iff_iff, IndexMap.containsKey_iff, IndexMap.containsKey_iff,
        ← IndexMap.isSome_get_iff, ← IndexMap.isSome_get_iff, hg x, Option.isSome_map]
    rw [he, List.nil_append, Environment.define, hkey]
    cases hc : w.globals.containsKey x with
    | true => exact .inr fun m => ⟨rfl, by rw [Engine.defineGlobal, hc]; rfl⟩
    | false =>
      have hn : w.globals.get x = none := by
        rw [IndexMap.get_eq_none, ← IndexMap.containsKey_iff, hc]
        decide
      refine .inl ⟨hn, _, { w with globals := w.globals.insert x ⟨v, mutable⟩ }, rfl,
        by rw [Engine.defineGlobal, hc]; rfl, hm.world, hm.length, fun y hy => ?_, [],
        module.insert x ⟨v, mutable⟩, rfl, .nil, fun y => ?_⟩
      · dsimp only
        rw [IndexMap.get_insert]
        split
        · exact Option.some_ne_none _
        · next hne => exact hm.known y ((List.mem_cons.mp hy).resolve_left hne)
      · dsimp only
        rw [IndexMap.get_insert, IndexMap.get_insert]
        split
        · rfl
        · exact hg y

end Matches
end AScript.Compile
