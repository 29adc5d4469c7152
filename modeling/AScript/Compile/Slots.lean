import AScript.Compile.Resolve

namespace AScript.Compile

open AScript.Lib

abbrev Scope := IndexMap String Local

structure Resolver.Apart (r : Resolver) : Prop where
  below : ∀ sc ∈ r.scopes, ∀ x l, sc.get x = some l → l.slot < r.nextSlot
  inScope : ∀ sc ∈ r.scopes, ∀ x y l m, sc.get x = some l → sc.get y = some m → l.slot = m.slot →
    x = y
  acrossScopes : r.scopes.Pairwise fun sc sc' => ∀ x y l m, sc.get x = some l →
    sc'.get y = some m → l.slot ≠ m.slot

structure Resolver.Extends (r r' : Resolver) : Prop where
  length : r'.scopes.length = r.scopes.length
  outer : r'.scopes.tail = r.scopes.tail
  next : r.nextSlot ≤ r'.nextSlot
  apart : r.Apart → r'.Apart

namespace Resolver

variable {r r' r'' : Resolver}

theorem Apart.pushScope (h : r.Apart) : r.pushScope.Apart where
  below sc hsc x l hl := by
    rcases List.mem_cons.mp hsc with rfl | hsc
    · cases hl
    · exact h.below sc hsc x l hl
  inScope sc hsc x y l m hl := by
    rcases List.mem_cons.mp hsc with rfl | hsc
    · cases hl
    · exact h.inScope sc hsc x y l m hl
  acrossScopes := List.pairwise_cons.mpr ⟨fun sc _ x y l m hl => (by cases hl), h.acrossScopes⟩

theorem Apart.popScope (h : r.Apart) : r.popScope.Apart where
  below sc hsc := h.below sc (List.mem_of_mem_tail hsc)
  inScope sc hsc := h.inScope sc (List.mem_of_mem_tail hsc)
  acrossScopes := h.acrossScopes.tail

theorem Apart.declareMut (h : r.Apart) (b : Binder) : (r.declareMut b).2.Apart := by
  obtain ⟨scopes, n⟩ := r
  cases scopes with
  | nil => exact ⟨fun sc hsc => absurd hsc List.not_mem_nil,
      fun sc hsc => absurd hsc List.not_mem_nil, .nil⟩
  | cons sc scs =>
    obtain ⟨hd, hp⟩ := List.pairwise_cons.mp h.acrossScopes
    have hbelow : ∀ sc' ∈ sc :: scs, ∀ x l, sc'.get x = some l → l.slot < n := h.below
    have hnew : ∀ x l, (sc.insert b.name ⟨n, b.mutable⟩).get x = some l →
        (x = b.name ∧ l.slot = n) ∨ (x ≠ b.name ∧ sc.get x = some l) := by
      intro x l hl
      rw [IndexMap.get_insert] at hl
      split at hl
      · next hx =>
        cases hl
        exact .inl ⟨hx, rfl⟩
      · next hx => exact .inr ⟨hx, hl⟩
    refine ⟨fun sc' hsc x l hl => ?_, fun sc' hsc x y l m hl hm he => ?_,
      List.pairwise_cons.mpr ⟨fun sc' hsc x y l m hl hm => ?_, hp⟩⟩
    · rcases List.mem_cons.mp hsc with rfl | hsc
      · rcases hnew x l hl with ⟨-, hs⟩ | ⟨-, hl⟩
        · exact hs ▸ Nat.lt_succ_self n
        · exact Nat.lt_succ_of_lt (hbelow sc (.head _) x l hl)
      · exact Nat.lt_succ_of_lt (hbelow sc' (.tail _ hsc) x l hl)
    · rcases List.mem_cons.mp hsc with rfl | hsc
      · rcases hnew x l hl with ⟨rfl, hs⟩ | ⟨-, hl⟩ <;> rcases hnew y m hm with ⟨rfl, ht⟩ | ⟨-, hm⟩
        · rfl
        · have := hbelow sc (.head _) y m hm
          omega
        · have := hbelow sc (.head _) x l hl
          omega
        · exact h.inScope sc (.head _) x y l m hl hm he
      · exact h.inScope sc' (.tail _ hsc) x y l m hl hm he
    · have hlt := hbelow sc' (.tail _ hsc) y m hm
      rcases hnew x l hl with ⟨-, hs⟩ | ⟨-, hl⟩
      · omega
      · exact hd sc' hsc x y l m hl hm

namespace Extends

theorem refl (r : Resolver) : r.Extends r := ⟨rfl, rfl, Nat.le_refl _, id⟩

theorem trans (h : r.Extends r') (h' : r'.Extends r'') : r.Extends r'' :=
  ⟨h'.length.trans h.length, h'.outer.trans h.outer, Nat.le_trans h.next h'.next,
    fun ha => h'.apart (h.apart ha)⟩

theorem pop (h : r.pushScope.Extends r') : r.Extends r'.popScope := by
  have hs : r'.popScope.scopes = r.scopes := h.outer
  exact ⟨by rw [hs], by rw [hs], h.next, fun ha => (h.apart ha.pushScope).popScope⟩

theorem scopes_pop (h : r.pushScope.Extends r') : r'.popScope.scopes = r.scopes := h.outer

theorem ne_nil (h : r.Extends r') (hr : r.scopes ≠ []) : r'.scopes ≠ [] := by
  rw [← List.length_pos_iff] at hr ⊢
  rwa [h.length]

theorem declareMut (r : Resolver) (b : Binder) : r.Extends (r.declareMut b).2 := by
  refine ⟨?_, ?_, Nat.le_succ _, fun ha => ha.declareMut b⟩ <;>
    cases hr : r.scopes <;> simp [Resolver.declareMut, hr]

theorem declareBinding (globals : ModuleGlobals) (r : Resolver) (b : Binder) :
    r.Extends (r.declareBinding globals b).2 := by
  unfold Resolver.declareBinding
  split
  · exact .refl r
  · exact declareMut r b

end Extends

variable (globals : ModuleGlobals)

mutual

theorem extends_stmt (s : Stmt String Binder) (r : Resolver) :
    r.Extends (resolveStmt globals r s).2 := by
  cases s with
  | expr e => exact .refl r
  | letStmt b init => exact .declareBinding globals r b
  | block b => exact (extends_stmts b r.pushScope).pop
  | ifThen c t => exact (extends_stmts t r.pushScope).pop
  | ifElse c t e => exact (extends_stmts t r.pushScope).pop.trans (extends_stmts e _).pop
  | elseIf c t e => exact (extends_stmts t r.pushScope).pop.trans (extends_stmt e _)
  | whileLoop c b => exact (extends_stmts b r.pushScope).pop
  | breakStmt => exact .refl r
  | continueStmt => exact .refl r
  | returnStmt e => exact .refl r

theorem extends_stmts (ss : List (Stmt String Binder)) (r : Resolver) :
    r.Extends (resolveStmts globals r ss).2 := by
  cases ss with
  | nil => exact .refl r
  | cons s ss => exact (extends_stmt s r).trans (extends_stmts ss _)

end

theorem scopes_stmt {s : Stmt String Binder} (hd : s.Distinct) (hs : s.declares = none)
    (r : Resolver) : (resolveStmt globals r s).2.scopes = r.scopes := by
  cases s with
  | letStmt b init => cases hs
  | expr e => rfl
  | block b => exact (extends_stmts globals b r.pushScope).scopes_pop
  | ifThen c t => exact (extends_stmts globals t r.pushScope).scopes_pop
  | ifElse c t e =>
    exact (extends_stmts globals e _).scopes_pop.trans
      (extends_stmts globals t r.pushScope).scopes_pop
  | elseIf c t e =>
    exact (scopes_stmt hd.2.2 hd.2.1 _).trans (extends_stmts globals t r.pushScope).scopes_pop
  | whileLoop c b => exact (extends_stmts globals b r.pushScope).scopes_pop
  | breakStmt => rfl
  | continueStmt => rfl
  | returnStmt e => rfl

def insertEmpty (k : Nat) (r : Resolver) : Resolver :=
  { r with scopes := r.scopes.take k ++ .empty :: r.scopes.drop k }

theorem insertEmpty_pushScope (k : Nat) (r : Resolver) :
    (r.insertEmpty k).pushScope = r.pushScope.insertEmpty (k + 1) := rfl

theorem insertEmpty_popScope (k : Nat) (hr : r.scopes ≠ []) :
    (r.insertEmpty (k + 1)).popScope = r.popScope.insertEmpty k := by
  obtain ⟨scopes, n⟩ := r
  cases scopes with
  | nil => exact absurd rfl hr
  | cons sc scs => rfl

theorem insertEmpty_declareMut (k : Nat) (hr : r.scopes ≠ []) (b : Binder) :
    (r.insertEmpty (k + 1)).declareMut b =
      ((r.declareMut b).1, (r.declareMut b).2.insertEmpty (k + 1)) := by
  obtain ⟨scopes, n⟩ := r
  cases scopes with
  | nil => exact absurd rfl hr
  | cons sc scs => rfl

theorem resolveName_insertEmpty (k : Nat) (r : Resolver) :
    resolveName globals (r.insertEmpty k).scopes = resolveName globals r.scopes := by
  funext x
  have he : (IndexMap.empty : Scope).get x = none := rfl
  have hfind : resolveLocal (r.insertEmpty k).scopes x = resolveLocal r.scopes x := by
    conv_rhs => rw [← List.take_append_drop k r.scopes]
    simp only [resolveLocal, insertEmpty, List.findSome?_append, List.findSome?_cons, he]
  simp only [resolveName, hfind]

theorem resolveExpr_insertEmpty (k : Nat) (r : Resolver) :
    resolveExpr globals (r.insertEmpty k) = resolveExpr globals r := by
  funext e
  simp only [resolveExpr, resolveName_insertEmpty]

theorem declareBinding_insertEmpty (k : Nat) (hr : r.scopes ≠ []) (b : Binder) :
    (r.insertEmpty (k + 1)).declareBinding globals b =
      ((r.declareBinding globals b).1, (r.declareBinding globals b).2.insertEmpty (k + 1)) := by
  have htop : ∀ r' : Resolver, r'.scopes ≠ [] → r'.declareBinding globals b = r'.declareMut b := by
    intro r' hr'
    simp [declareBinding, atModuleTop, hr']
  rw [htop r hr, htop _ (by simp [insertEmpty]), insertEmpty_declareMut k hr]

theorem inner_insertEmpty {b : List (Stmt String Binder)} {k : Nat}
    (h : resolveStmts globals (r.pushScope.insertEmpty (k + 1)) b =
      ((resolveStmts globals r.pushScope b).1,
        (resolveStmts globals r.pushScope b).2.insertEmpty (k + 1))) :
    (resolveStmts globals (r.insertEmpty k).pushScope b).1 =
        (resolveStmts globals r.pushScope b).1 ∧
      (resolveStmts globals (r.insertEmpty k).pushScope b).2.popScope =
        (resolveStmts globals r.pushScope b).2.popScope.insertEmpty k := by
  rw [insertEmpty_pushScope, h]
  exact ⟨rfl, insertEmpty_popScope k
    ((extends_stmts globals b r.pushScope).ne_nil (List.cons_ne_nil _ _))⟩

mutual

theorem resolveStmt_insertEmpty (s : Stmt String Binder) (hd : s.Distinct) {k : Nat}
    {r : Resolver} (hk : k ≤ r.scopes.length) (hs : k = 0 → s.declares = none) :
    resolveStmt globals (r.insertEmpty k) s =
      ((resolveStmt globals r s).1, (resolveStmt globals r s).2.insertEmpty k) := by
  cases s with
  | expr e => simp only [resolveStmt, resolveExpr_insertEmpty]
  | letStmt b init =>
    obtain ⟨k, rfl⟩ : ∃ j, k = j + 1 :=
      Nat.exists_eq_succ_of_ne_zero fun hk => by cases hs hk
    have hr : r.scopes ≠ [] := fun he => by
      rw [he] at hk
      cases hk
    simp only [resolveStmt, resolveExpr_insertEmpty, declareBinding_insertEmpty globals k hr]
  | block b =>
    obtain ⟨h₁, h₂⟩ := inner_insertEmpty globals
      (resolveStmts_insertEmpty b hd (Nat.succ_le_succ hk))
    simp only [resolveStmt, h₁, h₂]
  | ifThen c t =>
    obtain ⟨h₁, h₂⟩ := inner_insertEmpty globals
      (resolveStmts_insertEmpty t hd (Nat.succ_le_succ hk))
    simp only [resolveStmt, resolveExpr_insertEmpty, h₁, h₂]
  | ifElse c t e =>
    obtain ⟨h₁, h₂⟩ := inner_insertEmpty globals
      (resolveStmts_insertEmpty t hd.1 (Nat.succ_le_succ hk))
    have hext := extends_stmts globals t r.pushScope
    have hk' : k ≤ (resolveStmts globals r.pushScope t).2.popScope.scopes.length := by
      rw [hext.scopes_pop]
      exact hk
    obtain ⟨h₃, h₄⟩ := inner_insertEmpty globals
      (resolveStmts_insertEmpty e hd.2 (Nat.succ_le_succ hk'))
    simp only [resolveStmt, resolveExpr_insertEmpty, h₁, h₂, h₃, h₄]
  | elseIf c t e =>
    obtain ⟨h₁, h₂⟩ := inner_insertEmpty globals
      (resolveStmts_insertEmpty t hd.1 (Nat.succ_le_succ hk))
    have hext := extends_stmts globals t r.pushScope
    have hk' : k ≤ (resolveStmts globals r.pushScope t).2.popScope.scopes.length := by
      rw [hext.scopes_pop]
      exact hk
    have he := resolveStmt_insertEmpty e hd.2.2 hk' fun _ => hd.2.1
    simp only [resolveStmt, resolveExpr_insertEmpty, h₁, h₂, he]
  | whileLoop c b =>
    obtain ⟨h₁, h₂⟩ := inner_insertEmpty globals
      (resolveStmts_insertEmpty b hd (Nat.succ_le_succ hk))
    simp only [resolveStmt, resolveExpr_insertEmpty, h₁, h₂]
  | breakStmt => rfl
  | continueStmt => rfl
  | returnStmt e => simp only [resolveStmt, resolveExpr_insertEmpty]

theorem resolveStmts_insertEmpty (ss : List (Stmt String Binder)) (hd : Stmt.DistinctBlock ss)
    {k : Nat} {r : Resolver} (hk : k + 1 ≤ r.scopes.length) :
    resolveStmts globals (r.insertEmpty (k + 1)) ss =
      ((resolveStmts globals r ss).1, (resolveStmts globals r ss).2.insertEmpty (k + 1)) := by
  cases ss with
  | nil => rfl
  | cons s ss =>
    have h₁ := resolveStmt_insertEmpty s hd.1 hk fun h => by cases h
    have h₂ := resolveStmts_insertEmpty ss hd.2.2 (r := (resolveStmt globals r s).2)
      (by rw [(extends_stmt globals s r).length]; exact hk)
    simp only [resolveStmts, h₁, h₂]

end

theorem resolveStmt_pushScope {s : Stmt String Binder} (hd : s.Distinct) (hs : s.declares = none)
    (r : Resolver) : resolveStmt globals r.pushScope s =
      ((resolveStmt globals r s).1, (resolveStmt globals r s).2.pushScope) :=
  resolveStmt_insertEmpty globals s hd (Nat.zero_le _) fun _ => hs

end Resolver
end AScript.Compile
