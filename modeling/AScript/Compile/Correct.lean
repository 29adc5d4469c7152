import AScript.Compile.Blocks
import AScript.Compile.Statements

namespace AScript.Compile

open AScript.Lib AScript.Syntax AScript.Bytecode Engine

variable {h : Host}

theorem sameOuter_of_extends {r r' : Resolver} (he : r.Extends r') :
    SameOuter r.scopes r'.scopes :=
  ⟨he.length, he.outer⟩

def Fresh (scopes : List Scope) (xs : List String) : Prop :=
  ∀ sc ∈ scopes.head?, ∀ x ∈ xs, sc.get x = none

theorem fresh_empty (scopes : List Scope) (xs : List String) : Fresh (.empty :: scopes) xs := by
  intro sc hsc x _
  cases hsc
  rfl

variable (globals : ModuleGlobals)

theorem declareBinding_inner {r : Resolver} (hr : r.scopes ≠ []) (b : Binder) :
    r.declareBinding globals b = r.declareMut b := by
  simp [Resolver.declareBinding, Resolver.atModuleTop, hr]

theorem fresh_stmt {s : Stmt String Binder} {ss : List (Stmt String Binder)} {r : Resolver}
    (hd : s.Distinct) (hs : ∀ x ∈ s.declares, x ∉ ss.filterMap Stmt.declares)
    (hr : r.scopes ≠ []) (hf : Fresh r.scopes ((s :: ss).filterMap Stmt.declares)) :
    Fresh (r.resolveStmt globals s).2.scopes (ss.filterMap Stmt.declares) := by
  have hrest : Fresh r.scopes (ss.filterMap Stmt.declares) := by
    intro sc hsc x hx
    refine hf sc hsc x ?_
    obtain ⟨t, ht, he⟩ := List.mem_filterMap.mp hx
    exact List.mem_filterMap.mpr ⟨t, .tail _ ht, he⟩
  cases s with
  | letStmt b init =>
    have hr' : (r.resolveStmt globals (.letStmt b init)).2 = (r.declareMut b).2 := by
      rw [Resolver.resolveStmt, declareBinding_inner globals hr]
    rw [hr']
    obtain ⟨scopes, n⟩ := r
    cases scopes with
    | nil => exact absurd rfl hr
    | cons sc scs =>
      intro sc' hsc x hx
      cases hsc
      have hne : x ≠ b.name := by
        rintro rfl
        exact hs b.name rfl hx
      rw [IndexMap.get_insert, if_neg hne]
      exact hrest sc rfl x hx
  | _ =>
    rw [Resolver.scopes_stmt globals hd rfl]
    exact hrest

namespace Target

variable {M : Target h} {globals}

theorem pushes_expr {scopes : List Scope} {e : Expr String} (hf : M.Fits scopes)
    (hn : e.levels ≤ exprNestLimit)
    (ha : ∀ x ∈ (e.map (resolveName globals scopes)).assigned, Assignable x)
    (hc : Code M.chunk (e.map (resolveName globals scopes)) none p q) :
    M.Pushes scopes (evalExpr e) p q :=
  pushes_alone (chains_expr hf e ha) hn hc

theorem optional_eval (e : Option (Expr String)) :
    (e.elim (pure h.nil) fun e => Exec.eval (evalExpr e) : Exec h h.V) =
      Exec.eval (e.elim (pure h.nil) evalExpr) := by
  cases e <;> rfl

theorem pushes_optional {r : Resolver} {e : Option (Expr String)} (hf : M.Fits r.scopes)
    (hn : ∀ a ∈ e.toList, a.levels ≤ exprNestLimit)
    (ha : ∀ x ∈ (e.map (r.resolveExpr globals)).elim [] Expr.assigned, Assignable x)
    (hc : OptionalCode M.chunk (e.map (r.resolveExpr globals)) p q) :
    M.Pushes r.scopes (e.elim (pure h.nil) evalExpr) p q := by
  cases e with
  | some e => exact pushes_expr hf (hn e (.head _)) ha hc
  | none =>
    intro ops
    exact .first q (ops ++ [h.nil]) (fun st w => by
      simpa only [List.append_assoc] using step_nil (st ++ ops) w hc) (.pure rfl)

theorem executes_return {r : Resolver} {e : Option (Expr String)} {lands : Landing h.V}
    (hf : M.Fits r.scopes) (hn : ∀ a ∈ e.toList, a.levels ≤ exprNestLimit)
    (ha : ∀ x ∈ (e.map (r.resolveExpr globals)).elim [] Expr.assigned, Assignable x)
    (hc : ReturnCode M.chunk (e.map (r.resolveExpr globals)) p q) :
    M.Executes fuel r.scopes (execStmt fuel (.returnStmt e)) p [] lands := by
  obtain ⟨m, hoc, hret⟩ := hc
  rw [execStmt, optional_eval]
  refine .eval (pushes_optional hf hn ha hoc []) fun v s locals w hw => ?_
  obtain ⟨fb, hstep, hworld⟩ := M.step_return locals w hret v
  exact .inl ⟨v, rfl, v, fb, by rw [hworld, hw.world], .of_step hstep⟩

theorem executes_let {r : Resolver} {b : Binder} {init : Option (Expr String)} (hap : r.Apart)
    (hslots : r.nextSlot < M.slots) (hr : r.scopes ≠ []) (hfresh : Fresh r.scopes [b.name])
    (hn : ∀ e ∈ init.toList, e.levels ≤ exprNestLimit)
    (ha : ∀ x ∈ (init.map (r.resolveExpr globals)).elim [] Expr.assigned, Assignable x)
    (hc : LetCode M.chunk (r.declareMut b).1 (init.map (r.resolveExpr globals)) p q) :
    M.Executes fuel r.scopes (execStmt fuel (.letStmt b init)) p []
      (stmtLands h.V r.scopes (r.declareMut b).2.scopes ends q) := by
  have hf : M.Fits r.scopes := ⟨r.nextSlot, hap, Nat.le_of_lt hslots⟩
  obtain ⟨m, hic, hset⟩ := hc
  rw [execStmt, optional_eval]
  refine .eval (pushes_optional hf hn ha hic []) fun v s locals w hw => ?_
  have hset : OpU16 M.chunk .setLocal r.nextSlot m q := hset
  have hk : r.nextSlot < locals.length := hw.length ▸ hslots
  obtain ⟨scopes, n⟩ := r
  cases scopes with
  | nil => exact absurd rfl hr
  | cons sc scs =>
    obtain ⟨env, he, hw'⟩ := hw.define_local hap (hfresh sc rfl b.name (.head _)) hslots v b.mutable
    have hdef : Exec.define b v s = some (.ok (), { s with env }) := by rw [Exec.define, he]
    rw [exec_bind, hdef]
    have hstep : M.step (cfg m (locals ++ [v]) w) = _ := step_setLocal locals w hset hk v
    exact .inr ⟨q, _, _, w, ⟨rfl, rfl⟩, hw', (Reaches.of_step hstep).weaken (Nat.zero_le 1)⟩

theorem Executes.inner {b : List (Stmt String Binder)} {r : Resolver}
    (hb : M.Executes fuel r.pushScope.scopes (execStmts fuel b) p []
      (stmtLands h.V r.pushScope.scopes (r.pushScope.resolveStmts globals b).2.scopes ends q)) :
    M.Executes fuel r.scopes (Exec.inChild (execStmts fuel b)) p []
      (childLands h.V r.scopes ends q) :=
  hb.child (sameOuter_of_extends (Resolver.extends_stmts globals b r.pushScope))

mutual

theorem executes_stmt (fuel : Nat) (s : Stmt String Binder) {r : Resolver} {ends : LoopEnds}
    {p q : Nat} (hd : s.Distinct) (hn : ∀ e ∈ s.exprs, e.levels ≤ exprNestLimit) (hap : r.Apart)
    (hslots : (r.resolveStmt globals s).2.nextSlot ≤ M.slots)
    (hr : r.scopes = [] → s.declares = none) (hfresh : Fresh r.scopes s.declares.toList)
    (ha : ∀ x ∈ (r.resolveStmt globals s).1.assigned, Assignable x)
    (hc : StmtCode M.chunk ends (r.resolveStmt globals s).1 p q) :
    M.Executes fuel r.scopes (execStmt fuel s) p []
      (stmtLands h.V r.scopes (r.resolveStmt globals s).2.scopes ends q) := by
  have hext := Resolver.extends_stmt globals s r
  have hf : M.Fits r.scopes := ⟨r.nextSlot, hap, Nat.le_trans hext.next hslots⟩
  cases s with
  | expr e =>
    obtain ⟨m, hec, hpop⟩ := hc
    refine .eval (pushes_expr hf (hn e (.head _)) ha hec []) fun a => ?_
    exact .first q [] (fun st w => by
      simpa only [List.append_nil, List.nil_append] using step_pop st w hpop a) (.done ⟨rfl, rfl⟩)
  | letStmt b init =>
    have hne : r.scopes ≠ [] := fun he => by cases hr he
    have hdecl := declareBinding_inner globals hne b
    simp only [Resolver.resolveStmt, hdecl] at hslots ha hc ⊢
    exact executes_let hap hslots hne hfresh hn ha hc
  | block b =>
    rw [Resolver.scopes_stmt globals hd rfl]
    exact (executes_stmts fuel b hd hn hap.pushScope hslots (List.cons_ne_nil _ _)
      (fresh_empty _ _) ha hc).inner.weaken
  | ifThen c t =>
    obtain ⟨hac, hat⟩ := List.forall_mem_append.mp ha
    obtain ⟨hnc, hnt⟩ := List.forall_mem_cons.mp hn
    obtain ⟨m₁, m₂, m₃, hcc, hjf, htc, hj⟩ := hc
    have hthen := (executes_stmts fuel t hd hnt hap.pushScope hslots (List.cons_ne_nil _ _)
      (fresh_empty _ _) hat htc).inner
    rw [Resolver.scopes_stmt globals hd rfl]
    exact .weaken (.branch (pushes_expr hf hnc hac hcc) hjf
      (hthen.jump fun st w => step_jump st w hj)
      (.done ⟨rfl, rfl⟩))
  | ifElse c t e =>
    obtain ⟨hact, hae⟩ := List.forall_mem_append.mp ha
    obtain ⟨hac, hat⟩ := List.forall_mem_append.mp hact
    obtain ⟨hnct, hne⟩ := List.forall_mem_append.mp hn
    obtain ⟨hnc, hnt⟩ := List.forall_mem_cons.mp hnct
    obtain ⟨m₁, m₂, m₃, m₄, hcc, hjf, htc, hj, hec⟩ := hc
    have ht := Resolver.extends_stmts globals t r.pushScope
    have he := Resolver.extends_stmts globals e
      (r.pushScope.resolveStmts globals t).2.popScope.pushScope
    have hthen := (executes_stmts fuel t hd.1 hnt hap.pushScope (Nat.le_trans he.next hslots)
      (List.cons_ne_nil _ _) (fresh_empty _ _) hat htc).inner
    have helse := (executes_stmts fuel e hd.2 hne (ht.apart hap.pushScope).popScope.pushScope hslots
      (List.cons_ne_nil _ _) (fresh_empty _ _) hae hec).inner
    rw [ht.scopes_pop] at helse
    rw [Resolver.scopes_stmt globals hd rfl]
    exact .weaken (.branch (pushes_expr hf hnc hac hcc) hjf
      (hthen.jump fun st w => step_jump st w hj)
      helse)
  | elseIf c t e =>
    obtain ⟨hact, hae⟩ := List.forall_mem_append.mp ha
    obtain ⟨hac, hat⟩ := List.forall_mem_append.mp hact
    obtain ⟨hnct, hne⟩ := List.forall_mem_append.mp hn
    obtain ⟨hnc, hnt⟩ := List.forall_mem_cons.mp hnct
    obtain ⟨m₁, m₂, m₃, m₄, hcc, hjf, htc, hj, hec⟩ := hc
    have ht := Resolver.extends_stmts globals t r.pushScope
    have hpop := ht.scopes_pop
    have hap' := (ht.apart hap.pushScope).popScope
    have hslots' : (Resolver.resolveStmt globals
      (r.pushScope.resolveStmts globals t).2.popScope e).2.nextSlot ≤ M.slots := hslots
    have hae' : ∀ x ∈ (Resolver.resolveStmt globals
      (r.pushScope.resolveStmts globals t).2.popScope e).1.assigned, Assignable x := hae
    have hec' : StmtCode M.chunk ends (Resolver.resolveStmt globals
      (r.pushScope.resolveStmts globals t).2.popScope e).1 m₄ q := hec
    have hslots'' : (r.pushScope.resolveStmts globals t).2.nextSlot ≤ M.slots :=
      Nat.le_trans (Resolver.extends_stmt globals e
        (r.pushScope.resolveStmts globals t).2.popScope).next hslots'
    have hthen := (executes_stmts fuel t hd.1 hnt hap.pushScope hslots'' (List.cons_ne_nil _ _)
      (fresh_empty _ _) hat htc).inner
    rw [Resolver.scopes_stmt globals hd rfl]
    generalize (r.pushScope.resolveStmts globals t).2.popScope = r' at hpop hap' hslots' hae' hec'
    have hpush := Resolver.resolveStmt_pushScope globals hd.2.2 hd.2.1 r'
    have h₁ : (Resolver.resolveStmt globals r'.pushScope e).2.nextSlot ≤ M.slots := by
      rw [hpush]
      exact hslots'
    have h₂ : ∀ x ∈ (Resolver.resolveStmt globals r'.pushScope e).1.assigned, Assignable x := by
      rw [hpush]
      exact hae'
    have h₃ : StmtCode M.chunk ends (Resolver.resolveStmt globals r'.pushScope e).1 m₄ q := by
      rw [hpush]
      exact hec'
    have helse := executes_stmt fuel e hd.2.2 hne hap'.pushScope h₁ (fun _ => hd.2.1)
      (fresh_empty _ _) h₂ h₃
    have houter := sameOuter_of_extends (Resolver.extends_stmt globals e r'.pushScope)
    have hpop' : r'.pushScope.scopes = .empty :: r.scopes := congrArg (IndexMap.empty :: ·) hpop
    rw [hpop'] at helse houter
    exact .weaken (.branch (pushes_expr hf hnc hac hcc) hjf
      (hthen.jump fun st w => step_jump st w hj)
      (helse.child houter))
  | whileLoop c b =>
    obtain ⟨hac, hab⟩ := List.forall_mem_append.mp ha
    obtain ⟨hnc, hnb⟩ := List.forall_mem_cons.mp hn
    obtain ⟨m₁, m₂, m₃, hcc, hjf, hbc, hl⟩ := hc
    have hbody := (executes_stmts fuel b hd hnb hap.pushScope hslots (List.cons_ne_nil _ _)
      (fresh_empty _ _) hab hbc).inner
    rw [Resolver.scopes_stmt globals hd rfl]
    exact .weaken (.whileLoop (Nat.le_refl _) (pushes_expr hf hnc hac hcc) hjf hbody hl)
  | breakStmt =>
    obtain ⟨b, k, he, hj⟩ := hc
    exact .first b [] (fun st w => step_jump _ w hj) (.done ⟨⟨k, he⟩, .refl _⟩)
  | continueStmt =>
    obtain ⟨b, k, he, hj⟩ := hc
    exact .first k [] (fun st w => step_loop _ w hj) (.done ⟨⟨b, he⟩, .refl _⟩)
  | returnStmt e => exact executes_return hf hn ha hc

theorem executes_stmts (fuel : Nat) (ss : List (Stmt String Binder)) {r : Resolver}
    {ends : LoopEnds}
    {p q : Nat} (hd : Stmt.DistinctBlock ss)
    (hn : ∀ e ∈ Stmt.exprsIn ss, e.levels ≤ exprNestLimit) (hap : r.Apart)
    (hslots : (r.resolveStmts globals ss).2.nextSlot ≤ M.slots) (hr : r.scopes ≠ [])
    (hfresh : Fresh r.scopes (ss.filterMap Stmt.declares))
    (ha : ∀ x ∈ Stmt.assignedIn (r.resolveStmts globals ss).1, Assignable x)
    (hc : BlockCode M.chunk ends (r.resolveStmts globals ss).1 p q) :
    M.Executes fuel r.scopes (execStmts fuel ss) p []
      (stmtLands h.V r.scopes (r.resolveStmts globals ss).2.scopes ends q) := by
  cases ss with
  | nil =>
    cases hc
    exact .done ⟨rfl, rfl⟩
  | cons s ss =>
    obtain ⟨has, hass⟩ := List.forall_mem_append.mp ha
    obtain ⟨hns, hnss⟩ := List.forall_mem_append.mp hn
    obtain ⟨m, hsc, hssc⟩ := hc
    have hext := Resolver.extends_stmt globals s r
    have hrest := Resolver.extends_stmts globals ss (r.resolveStmt globals s).2
    have hfirst : Fresh r.scopes s.declares.toList := by
      intro sc hsc x hx
      refine hfresh sc hsc x (List.mem_filterMap.mpr ⟨s, .head _, ?_⟩)
      exact Option.mem_toList.mp hx
    exact .seq
      (executes_stmt fuel s hd.1 hns hap (Nat.le_trans hrest.next hslots) (fun he => absurd he hr)
        hfirst has hsc)
      (executes_stmts fuel ss hd.2.2 hnss (hext.apart hap) hslots (hext.ne_nil hr)
        (fresh_stmt globals hd.1 hd.2.1 hr hfresh) hass hssc)
      (sameOuter_of_extends hext)

end

end Target

def addGlobal (globals : ModuleGlobals) (s : Stmt String Binder) : ModuleGlobals :=
  match s with
  | .letStmt b _ =>
    if globals.containsKey b.name then globals else globals.insert b.name b.mutable
  | _ => globals

theorem collectModuleGlobals_eq (p : Program) : collectModuleGlobals p = p.foldl addGlobal .empty :=
  rfl

theorem get_addGlobal_of_some {globals : ModuleGlobals} (s : Stmt String Binder)
    (hx : globals.get x = some m) : (addGlobal globals s).get x = some m := by
  cases s with
  | letStmt b init =>
    rw [addGlobal]
    split
    · exact hx
    · next hk =>
      rw [IndexMap.get_insert, if_neg]
      · exact hx
      · rintro rfl
        refine hk ((IndexMap.containsKey_iff ..).mpr ((IndexMap.isSome_get_iff ..).mp ?_))
        rw [hx]
        rfl
  | _ => exact hx

theorem get_foldl_of_some {globals : ModuleGlobals} (ss : Program) (hx : globals.get x = some m) :
    (ss.foldl addGlobal globals).get x = some m := by
  induction ss generalizing globals with
  | nil => exact hx
  | cons s ss ih => exact ih (get_addGlobal_of_some s hx)

theorem get_addGlobal_of_not {globals : ModuleGlobals} {s : Stmt String Binder}
    (hs : s.declares ≠ some x) : (addGlobal globals s).get x = globals.get x := by
  cases s with
  | letStmt b init =>
    rw [addGlobal]
    split
    · rfl
    · rw [IndexMap.get_insert, if_neg]
      rintro rfl
      exact hs rfl
  | _ => rfl

theorem get_foldl_of_not {globals : ModuleGlobals} {ss : Program}
    (hs : x ∉ ss.filterMap Stmt.declares) : (ss.foldl addGlobal globals).get x = globals.get x := by
  induction ss generalizing globals with
  | nil => rfl
  | cons s ss ih =>
    have hrest : x ∉ ss.filterMap Stmt.declares := fun hm => by
      obtain ⟨t, ht, he⟩ := List.mem_filterMap.mp hm
      exact hs (List.mem_filterMap.mpr ⟨t, .tail _ ht, he⟩)
    rw [List.foldl_cons, ih hrest]
    exact get_addGlobal_of_not fun he => hs (List.mem_filterMap.mpr ⟨s, .head _, he⟩)

theorem get_collectModuleGlobals (done todo : Program) (b : Binder) (init : Option (Expr String)) :
    ∃ m, (collectModuleGlobals (done ++ .letStmt b init :: todo)).get b.name = some m ∧
      (b.name ∉ done.filterMap Stmt.declares → m = b.mutable) := by
  rw [collectModuleGlobals_eq, List.foldl_append, List.foldl_cons]
  cases hg : (done.foldl addGlobal .empty).get b.name with
  | some m =>
    refine ⟨m, get_foldl_of_some todo (get_addGlobal_of_some _ hg), fun hn => ?_⟩
    rw [get_foldl_of_not hn] at hg
    cases hg
  | none =>
    have hk : (done.foldl addGlobal .empty).containsKey b.name = false := by
      rw [Bool.eq_false_iff, ne_eq, IndexMap.containsKey_iff]
      exact (IndexMap.get_eq_none ..).mp hg
    refine ⟨b.mutable, get_foldl_of_some todo ?_, fun _ => rfl⟩
    simp only [addGlobal, hk, Bool.false_eq_true, if_false]
    rw [IndexMap.get_insert, if_pos rfl]

theorem apart_nil {r : Resolver} (hr : r.scopes = []) : r.Apart := by
  refine ⟨?_, ?_, ?_⟩ <;> simp [hr]

theorem fileCode_cons {c : Chunk} {s : Stmt NameUse Decl} {ss : List (Stmt NameUse Decl)}
    (hc : FileCode c (s :: ss) p q) :
    (∃ e m, s = .expr e ∧ ss = [] ∧ Code c e none p m ∧ OpAt c .«return» m q) ∨
      ∃ m, StmtCode c none s p m ∧ FileCode c ss m q := by
  cases s with
  | expr e =>
    cases ss with
    | nil =>
      obtain ⟨m, hec, hr⟩ := hc
      exact .inl ⟨e, m, rfl, rfl, hec, hr⟩
    | cons s' ss => exact .inr hc
  | _ => exact .inr hc

namespace Target

variable {M : Target h} {globals}

def Finishes (M : Target h) (fuel : Nat) (fb : Cfg h) :
    Option (Except h.E (Flow h.V) × State h) → Prop
  | none => RunsFor M.step fuel fb
  | some (r, s) => ∃ d, Ends M.step fb d ∧ shown d = some (programResult r, s.world)

theorem Finishes.after {fb fb' : Cfg h} {r : Option (Except h.E (Flow h.V) × State h)}
    (hr : Reaches M.step k fb fb') (hf : M.Finishes fuel fb' r) : M.Finishes fuel fb r := by
  rcases r with _ | ⟨r, s⟩
  · exact (hr.runsFor hf).weaken (Nat.le_add_left _ _)
  · obtain ⟨d, hd, hs⟩ := hf
    exact ⟨d, hr.ends hd, hs⟩

theorem Raises.finishes {fb : Cfg h} {s : State h} (hr : M.Raises fb e s.world) :
    M.Finishes fuel fb (some (.error e, s)) := by
  obtain ⟨w, hw, he⟩ := hr
  exact ⟨_, he, by rw [shown, hw]; rfl⟩

theorem Exits.finishes {fb : Cfg h} {s : State h} (hr : M.Exits fb s.world)
    (hf : programResult r = .ok ()) : M.Finishes fuel fb (some (r, s)) := by
  obtain ⟨v, fb', hw, he⟩ := hr
  exact ⟨_, he, by rw [shown, hw, hf]⟩

theorem exits_return {locals : List h.V} {w : Vars h} (hr : OpAt M.chunk .«return» m q) (v : h.V) :
    M.Exits (cfg m (locals ++ [v]) w) w.host := by
  obtain ⟨fb, hstep, hw⟩ := M.step_return locals w hr v
  exact ⟨v, fb, by rw [hw], .of_step hstep⟩

theorem finishes_seq {s : Stmt String Binder} {ss : Program} {m : Nat}
    (hs : M.Executes fuel [] (execStmt fuel s) p [] (stmtLands h.V [] [] none m))
    (hss : ∀ st locals w, Matches M.slots M.defined [] st locals w →
      M.Finishes fuel (cfg m locals w) (execStmts fuel ss st))
    {st : State h} {locals : List h.V} {w : Vars h}
    (hm : Matches M.slots M.defined [] st locals w) :
    M.Finishes fuel (cfg p locals w) (execStmts fuel (s :: ss) st) := by
  have hrun := hs st locals w hm
  rw [List.append_nil] at hrun
  rw [execStmts, exec_bind]
  rcases hst : execStmt fuel s st with _ | ⟨r, t⟩
  · rwa [hst] at hrun
  rw [hst] at hrun
  cases r with
  | error e => exact Raises.finishes hrun
  | ok flow =>
    rcases hrun with ⟨v, rfl, hret⟩ | ⟨ip, top, locals', w', hland, hm', hr⟩
    · exact hret.finishes rfl
    cases flow with
    | normal =>
      obtain ⟨rfl, rfl⟩ := hland
      exact (hss t locals' w' hm').after hr
    | «break» =>
      obtain ⟨⟨k, hk⟩, -⟩ := hland
      cases hk
    | «continue» =>
      obtain ⟨⟨k, hk⟩, -⟩ := hland
      cases hk
    | «return» v => cases hland

theorem finishes_last {r : Resolver} {e : Expr String} (hr : r.scopes = []) (hf : M.Fits r.scopes)
    (hn : e.levels ≤ exprNestLimit)
    (ha : ∀ x ∈ (r.resolveExpr globals e).assigned, Assignable x)
    (hc : Code M.chunk (r.resolveExpr globals e) none p m) (hret : OpAt M.chunk .«return» m q)
    {st : State h} {locals : List h.V} {w : Vars h}
    (hm : Matches M.slots M.defined [] st locals w) :
    M.Finishes fuel (cfg p locals w) (execStmts fuel [.expr e] st) := by
  have hval := pushes_expr hf hn ha hc [] st locals w (hr ▸ hm)
  rw [List.append_nil] at hval
  rw [execStmts, exec_bind, execStmt, exec_bind]
  simp only [Exec.eval]
  rcases hv : evalExpr e st with ⟨r', t⟩
  rw [hv] at hval
  cases r' with
  | error e => exact Raises.finishes hval
  | ok v =>
    obtain ⟨locals', w', hm', hreach⟩ := hval
    have hexit : M.Exits (cfg m (locals' ++ [v]) w') t.world := hm'.world ▸ exits_return hret v
    exact (hexit.finishes rfl).after hreach

theorem finishes_let {r : Resolver} {d : Decl} {b : Binder} {init : Option (Expr String)}
    {ss : Program} {q : Nat} (hr : r.scopes = []) (hf : M.Fits r.scopes)
    (hn : ∀ e ∈ init.toList, e.levels ≤ exprNestLimit)
    (ha : ∀ x ∈ (init.map (r.resolveExpr globals)).elim [] Expr.assigned, Assignable x)
    (hname : d.name = b.name) (hslot : d.slot = none)
    (hmut : b.name ∉ M.defined → d.mutable = b.mutable)
    (hc : LetCode M.chunk d (init.map (r.resolveExpr globals)) p q)
    (hss : ∀ st locals w, Matches M.slots (b.name :: M.defined) [] st locals w →
      M.Finishes fuel (cfg q locals w) (execStmts fuel ss st))
    {st : State h} {locals : List h.V} {w : Vars h}
    (hm : Matches M.slots M.defined [] st locals w) :
    M.Finishes fuel (cfg p locals w) (execStmts fuel (.letStmt b init :: ss) st) := by
  obtain ⟨m, hic, hdef⟩ := hc
  simp only [hslot, hname] at hdef
  obtain ⟨hdef, hflag⟩ := hdef
  have hinit := pushes_optional hf hn ha hic [] st locals w (hr ▸ hm)
  rw [execStmts, exec_bind, execStmt, optional_eval, exec_bind]
  simp only [Exec.eval]
  rw [List.append_nil] at hinit
  rcases hv : (init.elim (pure h.nil) evalExpr : Eval h h.V) st with ⟨r', t⟩
  rw [hv] at hinit
  cases r' with
  | error e => exact Raises.finishes hinit
  | ok v =>
    obtain ⟨locals', w', hm', hreach⟩ := hinit
    rw [hr] at hm'
    have hstep : M.step (cfg m (locals' ++ [v]) w') = _ := step_defineGlobal locals' w' hdef v
    have hreach : Reaches M.step 0 (cfg p locals w) (cfg m (locals' ++ [v]) w') := hreach
    dsimp only
    rw [exec_bind, Exec.define]
    rcases hm'.define_global b.name v b.mutable with ⟨hn, env, w'', he, hg, hm''⟩ | hbad
    · have hflag' : decide (M.chunk.readU8 (m + 3) ≠ 0) = b.mutable := by
        rw [← hmut fun hd => hm'.known _ hd hn, Bool.eq_iff_iff, decide_eq_true_iff]
        exact hflag
      rw [hflag', hg] at hstep
      rw [he]
      exact (hss _ locals' w'' hm'').after (hreach.trans (Reaches.of_step hstep))
    · obtain ⟨he, hg⟩ := hbad (decide (M.chunk.readU8 (m + 3) ≠ 0))
      rw [hg] at hstep
      rw [he]
      exact Raises.finishes (Raises.after hreach ⟨w', hm'.world.symm, .of_step hstep⟩)

theorem finishes_file (fuel : Nat) (todo : Program) {done : Program} {M : Target h} {r : Resolver}
    {p q : Nat} (hd : ∀ s ∈ todo, s.Distinct)
    (hn : ∀ e ∈ Stmt.exprsIn todo, e.levels ≤ exprNestLimit) (hr : r.scopes = [])
    (hg : globals = collectModuleGlobals (done ++ todo))
    (hslots : (r.resolveStmts globals todo).2.nextSlot ≤ M.slots)
    (hdef : ∀ x ∈ done.filterMap Stmt.declares, x ∈ M.defined)
    (ha : ∀ x ∈ Stmt.assignedIn (r.resolveStmts globals todo).1, Assignable x)
    (hc : FileCode M.chunk (r.resolveStmts globals todo).1 p q)
    {st : State h} {locals : List h.V} {w : Vars h}
    (hm : Matches M.slots M.defined [] st locals w) :
    M.Finishes fuel (cfg p locals w) (execStmts fuel todo st) := by
  induction todo generalizing done M r p st locals w with
  | nil =>
    obtain ⟨m, hnil, hret⟩ := hc
    have hstep : M.step (cfg p locals w) = _ := step_nil locals w hnil
    have hexit : M.Exits (cfg m (locals ++ [h.nil]) w) st.world := hm.world ▸ exits_return hret _
    exact (hexit.finishes rfl).after (Reaches.of_step hstep)
  | cons s ss ih =>
    have hg' : globals = collectModuleGlobals ((done ++ [s]) ++ ss) := by
      rw [hg, List.append_assoc]
      rfl
    obtain ⟨has, hass⟩ := List.forall_mem_append.mp ha
    obtain ⟨hns, hnss⟩ := List.forall_mem_append.mp hn
    have hext := Resolver.extends_stmt globals s r
    have hnext := (Resolver.extends_stmts globals ss (r.resolveStmt globals s).2).next
    have hr' : (r.resolveStmt globals s).2.scopes = [] :=
      List.length_eq_zero_iff.mp (hext.length.trans (congrArg List.length hr))
    have hap : r.Apart := apart_nil hr
    have hf : M.Fits r.scopes :=
      ⟨r.nextSlot, hap, Nat.le_trans hext.next (Nat.le_trans hnext hslots)⟩
    have hdss : ∀ t ∈ ss, t.Distinct := fun t ht => hd t (.tail _ ht)
    cases hs : s.declares with
    | none =>
      have hdef' : ∀ x ∈ (done ++ [s]).filterMap Stmt.declares, x ∈ M.defined := by
        simpa [List.filterMap_append, hs] using hdef
      rcases fileCode_cons hc with ⟨e', m, hse, hnil, hec, hret⟩ | ⟨m, hsc, hssc⟩
      · cases s with
        | expr e =>
          cases ss with
          | nil =>
            cases hse
            exact finishes_last hr hf (hns e (.head _)) has hec hret hm
          | cons t ss => cases hnil
        | _ => cases hse
      · have hrun := executes_stmt fuel s (hd s (.head _)) hns hap (Nat.le_trans hnext hslots)
          (fun _ => hs) (by rw [hs]; exact fun sc _ x hx => absurd hx List.not_mem_nil) has hsc
        rw [hr, hr'] at hrun
        exact finishes_seq hrun (fun _ _ _ => ih hdss hnss hr' hg' hslots hdef' hass hssc) hm
    | some x =>
      cases s with
      | letStmt b init =>
        obtain ⟨m, hget, hmut⟩ := get_collectModuleGlobals done ss b init
        rw [← hg] at hget
        have hkey : globals.containsKey b.name = true := by
          rw [IndexMap.containsKey_iff, ← IndexMap.isSome_get_iff, hget]
          rfl
        have hdecl : r.declareBinding globals b = (⟨b.name, m, none⟩, r) := by
          simp [Resolver.declareBinding, Resolver.atModuleTop, hr, hkey, hget]
        have hdef' : ∀ x ∈ (done ++ [Stmt.letStmt b init]).filterMap Stmt.declares,
            x ∈ b.name :: M.defined := by
          intro x hx
          rw [List.filterMap_append, List.mem_append] at hx
          rcases hx with hx | hx
          · exact .tail _ (hdef x hx)
          · exact List.mem_singleton.mp hx ▸ .head _
        have hrest : ∀ m, FileCode M.chunk (r.resolveStmts globals ss).1 m q →
            ∀ st locals w, Matches M.slots (b.name :: M.defined) [] st locals w →
              M.Finishes fuel (cfg m locals w) (execStmts fuel ss st) := by
          intro m hq st locals w hm
          simp only [Resolver.resolveStmt, hdecl] at hass
          simp only [Resolver.resolveStmts, Resolver.resolveStmt, hdecl] at hslots
          exact ih (M := { M with defined := b.name :: M.defined }) hdss hnss hr hg' hslots hdef'
            hass hq hm
        simp only [Resolver.resolveStmts, Resolver.resolveStmt, hdecl] at hc has
        rcases fileCode_cons hc with ⟨e', m', hse, -⟩ | ⟨m', hsc, hssc⟩
        · cases hse
        · exact finishes_let hr hf hns has rfl rfl (fun hn => hmut fun hd => hn (hdef _ hd)) hsc
            (hrest m' hssc) hm
      | _ => cases hs

end Target

/-- A program that compiles to a chunk, whose expressions stay below the limit of the tree-walker,
where no name is declared twice in a block inside it and no built-in name is assigned, ends in the
tree-walker with an outcome if and only if the machine ends on the chunk and shows it; and the
machine always shows one when it ends. -/
theorem compile_correct {p : Program} {c : Chunk} (hc : compileSource p = .ok c)
    (hn : ∀ e ∈ Stmt.exprsIn p, e.levels ≤ exprNestLimit) (hd : ∀ s ∈ p, s.Distinct)
    (ha : ∀ x ∈ Stmt.assignedIn (resolve p).1, Assignable x)
    (others : Op → Nat → Cfg h → Arm h) (w : h.W) (o : Except h.E Unit × h.W) :
    ((∃ fuel, execProgram fuel p w = some o) ↔
      ∃ d, Ends (Engine.step c others) (start c w) d ∧ shown d = some o) ∧
      ∀ d, Ends (Engine.step c others) (start c w) d → ∃ o, shown d = some o := by
  obtain ⟨hfile, hslots⟩ := fileCode_of_compileSource hc
  have hinit : Matches (h := h) c.slotCount.toNat [] [] ⟨[.empty, globalEnv h], w⟩
      (List.replicate c.slotCount.toNat h.nil) ⟨w, .empty⟩ :=
    ⟨rfl, List.length_replicate, by simp, [], .empty, rfl, .nil, fun _ => rfl⟩
  have hrun : ∀ fuel, Target.Finishes ⟨c, others, c.slotCount.toNat, []⟩ fuel (start c w)
      (execStmts fuel p ⟨[.empty, globalEnv h], w⟩) := by
    intro fuel
    have hg : collectModuleGlobals p = collectModuleGlobals ([] ++ p) := rfl
    exact Target.finishes_file (M := ⟨c, others, c.slotCount.toNat, []⟩) fuel p hd hn rfl hg
      (Nat.le_of_eq hslots.symm) (by simp) ha hfile hinit
  refine agrees (fun fuel o ho => ?_) (fun fuel hn => ?_) o
  · have hfin := hrun fuel
    rw [execProgram] at ho
    rcases he : execStmts fuel p ⟨[.empty, globalEnv h], w⟩ with _ | ⟨r, s⟩
    · rw [he] at ho
      cases ho
    · rw [he] at ho hfin
      cases ho
      exact hfin
  · have hfin := hrun fuel
    rw [execProgram, Option.map_eq_none_iff] at hn
    rwa [hn] at hfin

/-- A host whose values are integers or nil, and whose world counts the operators. -/
def counter : Host where
  V := Option Int
  W := Nat
  E := String
  nil := none
  bool b := some b.toInt
  const k :=
    match k with
    | .int i => some i.val
    | _ => none
  builtin _ := none
  isTruthy v := v ≠ some 0 && v ≠ none
  isNil v := v.isNone
  isNil_iff := Option.isNone_iff_eq_none
  panic m := m
  debug _ := ""
  applyUnop _ v := .ok v
  applyBinop op l r w :=
    match op, l, r with
    | .add, some l, some r => (.ok (some (l + r)), w + 1)
    | .lt, some l, some r => (.ok (some (decide (l < r)).toInt), w + 1)
    | _, _, _ => (.error "operands", w)
  instanceofReservedType _ _ := false
  newArray _ w := (none, w)
  readMember _ name w := (.error name, w)
  setMember _ name _ w := (.error name, w)
  indexGet _ _ w := (.error "index", w)
  indexSet _ _ _ w := (.error "index", w)
  callValue _ _ w := (.error "call", w)

theorem execProgram_countTo :
    execProgram (h := counter) 4 countTo (0 : Nat) = some (.ok (), (7 : Nat)) := by
  let shown (r : Except String Unit × Nat) : Option Unit × Nat := (r.1.toOption, r.2)
  have hshown : (execProgram (h := counter) 4 countTo (0 : Nat)).map shown = some (some (), 7) := by
    decide +kernel
  obtain ⟨⟨e, w⟩, he, hr⟩ := Option.map_eq_some_iff.mp hshown
  cases e with
  | error e => cases hr
  | ok u =>
    cases hr
    exact he

theorem compile_correct_countTo :
    ∃ d, Ends (Engine.step countToChunk fun _ _ _ => .panic)
        (start (h := counter) countToChunk (0 : Nat)) d ∧
      shown d = some (.ok (), (7 : Nat)) :=
  (compile_correct (h := counter) compileSource_countTo (by decide)
    (by simp [countTo, Stmt.Distinct, Stmt.DistinctBlock, Stmt.declares])
    (fun x hx _ => by
      have hx : x ∈ [(⟨"i", .global, false⟩ : NameUse)] := hx
      rw [List.mem_singleton.mp hx]
      decide) _ (0 : Nat) (.ok (), (7 : Nat))).1.mp ⟨4, execProgram_countTo⟩

end AScript.Compile
