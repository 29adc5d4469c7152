import AScript.Compile.Blocks
import AScript.Compile.Moves
import AScript.Compile.Slots

namespace AScript.Compile

open AScript.Lib AScript.Syntax AScript.Bytecode

variable {c : Chunk} {p q : Nat} {exits : Points} {globals : ModuleGlobals}

theorem inFrame_resolveName {r : Resolver} (hap : r.Apart) (hn : r.nextSlot ≤ c.slotCount.toNat)
    (x : String) : InFrame c (resolveName globals r.scopes x) := by
  intro slot hs
  rw [resolveName] at hs
  split at hs
  next l hl =>
    cases hs
    obtain ⟨sc, hsc, hg⟩ := List.exists_of_findSome?_eq_some hl
    exact Nat.lt_of_lt_of_le (hap.below sc hsc x l hg) hn
  · cases hs

theorem moves_resolved {r : Resolver} (hap : r.Apart) (hn : r.nextSlot ≤ c.slotCount.toNat)
    (e : Expr String) : Moves c (Code c (r.resolveExpr globals e) none) 0 1 :=
  (movesChain_expr (inFrame_resolveName hap hn) e).plain

theorem moves_optional {r : Resolver} (hap : r.Apart) (hn : r.nextSlot ≤ c.slotCount.toNat)
    (e : Option (Expr String)) : Moves c (OptionalCode c (e.map (r.resolveExpr globals))) 0 1 := by
  cases e with
  | some e => exact moves_resolved hap hn e
  | none => exact moves_stacksOnly rfl

theorem moves_let {r : Resolver} (hap : r.Apart) (b : Binder)
    (hn : (r.declareBinding globals b).2.nextSlot ≤ c.slotCount.toNat)
    (init : Option (Expr String)) :
    Moves c (LetCode c (r.declareBinding globals b).1 (init.map (r.resolveExpr globals))) 0 0 := by
  intro p q d exits hc
  obtain ⟨m, h₁, h₂⟩ := hc
  have hle := (Resolver.Extends.declareBinding globals r b).next
  refine (moves_optional hap (Nat.le_trans hle hn) init p m d exits h₁).seq ?_
  rw [Resolver.declareBinding] at h₂ hn
  by_cases hg : (r.atModuleTop && globals.containsKey b.name) = true
  · rw [if_pos hg] at h₂
    exact moves_name rfl m q d exits h₂.1
  · rw [if_neg hg] at h₂ hn
    exact moves_setLocal hn m q d exits h₂

def SpansIn (c : Chunk) (ends : LoopEnds) (p q : Nat) : Prop :=
  ∀ exits : Points, (∀ b k, ends = some (b, k) → exits b 0 ∧ exits k 0) →
    Spans c p 0 q (some 0) exits

theorem SpansIn.add {ends : LoopEnds} (h : SpansIn c ends p q) (t k : Nat)
    (he : ∀ b k, ends = some (b, k) → exits b 0 ∧ exits k 0) :
    Spans c p 0 q (some 0) (exits.add t k) :=
  h _ fun b k' hb => ⟨.inl (he b k' hb).1, .inl (he b k' hb).2⟩

theorem spans_else {cond : Nat → Nat → Prop} {ends : LoopEnds} {m₁ m₂ m₃ m₄ : Nat}
    (hc : Moves c cond 0 1) (h₁ : cond p m₁) (hjf : OpJump c .jumpIfFalse m₄ m₁ m₂)
    (ht : SpansIn c ends m₂ m₃) (hje : OpJump c .jump q m₃ m₄) (he : SpansIn c ends m₄ q) :
    SpansIn c ends p q := by
  intro exits hends
  refine Spans.toEnd ((Spans.toEnd ?_).seq (he.add q 0 hends))
  refine (hc p m₁ 0 _ h₁).seq ((Spans.branch (.inl rfl) hjf (.inr ⟨rfl, rfl⟩)).seq ?_)
  refine (ht.add m₄ 0 fun b k hb => ?_).seq (.jump (.inl rfl) hje (.inl (.inr ⟨rfl, rfl⟩)))
  exact ⟨.inl (hends b k hb).1, .inl (hends b k hb).2⟩

mutual

theorem spans_stmt (s : Stmt String Binder) {r : Resolver} {ends : LoopEnds} {p q : Nat}
    (hap : r.Apart) (hn : (r.resolveStmt globals s).2.nextSlot ≤ c.slotCount.toNat)
    (hc : StmtCode c ends (r.resolveStmt globals s).1 p q) : SpansIn c ends p q := by
  have hr : r.nextSlot ≤ c.slotCount.toNat :=
    Nat.le_trans (Resolver.extends_stmt globals s r).next hn
  cases s with
  | expr e =>
    intro exits _
    obtain ⟨m, h₁, hpop⟩ := hc
    exact (moves_resolved hap hr e p m 0 exits h₁).seq (moves_stacksOnly rfl m q 0 exits hpop)
  | letStmt b init => exact fun exits _ => moves_let hap b hn init p q 0 exits hc
  | block b => exact spans_stmts b hap.pushScope hn hc
  | ifThen cond t =>
    intro exits hends
    obtain ⟨m₁, m₂, m₃, h₁, hjf, h₂, hje⟩ := hc
    refine Spans.toEnd ((moves_resolved hap hr cond p m₁ 0 _ h₁).seq ?_)
    refine (Spans.branch (.inl rfl) hjf (.inr ⟨rfl, rfl⟩)).seq ?_
    exact ((spans_stmts t hap.pushScope hn h₂).add q 0 hends).seq
      (.jump (.inl rfl) hje (.inr ⟨rfl, rfl⟩))
  | ifElse cond t e =>
    obtain ⟨m₁, m₂, m₃, m₄, h₁, hjf, h₂, hje, h₃⟩ := hc
    have ht := Resolver.extends_stmts globals t r.pushScope
    have he := Resolver.extends_stmts globals e
      (r.pushScope.resolveStmts globals t).2.popScope.pushScope
    exact spans_else (moves_resolved hap hr cond) h₁ hjf
      (spans_stmts t hap.pushScope (Nat.le_trans he.next hn) h₂) hje
      (spans_stmts e (ht.apart hap.pushScope).popScope.pushScope hn h₃)
  | elseIf cond t e =>
    obtain ⟨m₁, m₂, m₃, m₄, h₁, hjf, h₂, hje, h₃⟩ := hc
    have ht := Resolver.extends_stmts globals t r.pushScope
    have he := Resolver.extends_stmt globals e (r.pushScope.resolveStmts globals t).2.popScope
    exact spans_else (moves_resolved hap hr cond) h₁ hjf
      (spans_stmts t hap.pushScope (Nat.le_trans he.next hn) h₂) hje
      (spans_stmt e (ht.apart hap.pushScope).popScope hn h₃)
  | whileLoop cond b =>
    intro exits hends
    obtain ⟨m₁, m₂, m₃, h₁, hjf, h₂, hloop⟩ := hc
    refine Spans.toStart (Spans.toEnd ((moves_resolved hap hr cond p m₁ 0 _ h₁).seq ?_))
    refine (Spans.branch (.inl rfl) hjf (.inr ⟨rfl, rfl⟩)).seq ?_
    refine (spans_stmts b hap.pushScope hn h₂ _ fun b' k he => ?_).seq
      (.jump (.inr rfl) hloop (.inl (.inr ⟨rfl, rfl⟩)))
    cases he
    exact ⟨.inr ⟨rfl, rfl⟩, .inl (.inr ⟨rfl, rfl⟩)⟩
  | breakStmt =>
    intro exits hends
    obtain ⟨b, k, he, hj⟩ := hc
    exact .jump (.inl rfl) hj (hends b k he).1
  | continueStmt =>
    intro exits hends
    obtain ⟨b, k, he, hj⟩ := hc
    exact .jump (.inr rfl) hj (hends b k he).2
  | returnStmt e =>
    intro exits _
    obtain ⟨m, h₁, hret⟩ := hc
    exact (moves_optional hap hr e p m 0 exits h₁).seq (stop_return hret)

theorem spans_stmts (ss : List (Stmt String Binder)) {r : Resolver} {ends : LoopEnds} {p q : Nat}
    (hap : r.Apart) (hn : (r.resolveStmts globals ss).2.nextSlot ≤ c.slotCount.toNat)
    (hc : BlockCode c ends (r.resolveStmts globals ss).1 p q) : SpansIn c ends p q := by
  cases ss with
  | nil =>
    cases hc
    exact fun _ _ => .nil p 0
  | cons s ss =>
    intro exits hends
    obtain ⟨m, h₁, h₂⟩ := hc
    have hs := Resolver.extends_stmt globals s r
    have hss := Resolver.extends_stmts globals ss (r.resolveStmt globals s).2
    exact (spans_stmt s hap (Nat.le_trans hss.next hn) h₁ exits hends).seq
      (spans_stmts ss (hs.apart hap) hn h₂ exits hends)

end

theorem spans_file (ss : List (Stmt String Binder)) {r : Resolver} {p q : Nat} (hap : r.Apart)
    (hn : (r.resolveStmts globals ss).2.nextSlot ≤ c.slotCount.toNat)
    (hc : FileCode c (r.resolveStmts globals ss).1 p q) : Spans c p 0 q none exits := by
  induction ss generalizing r p with
  | nil =>
    obtain ⟨m, hnil, hret⟩ := hc
    exact (moves_stacksOnly rfl p m 0 exits hnil).seq (stop_return hret)
  | cons s ss ih =>
    have hs := Resolver.extends_stmt globals s r
    have hss := Resolver.extends_stmts globals ss (r.resolveStmt globals s).2
    have hrest : (∃ m, StmtCode c none (r.resolveStmt globals s).1 p m ∧
        FileCode c ((r.resolveStmt globals s).2.resolveStmts globals ss).1 m q) →
        Spans c p 0 q none exits := by
      rintro ⟨m, h₁, h₂⟩
      exact (spans_stmt s hap (Nat.le_trans hss.next hn) h₁ exits fun b k he => by cases he).seq
        (ih (hs.apart hap) hn h₂)
    cases s with
    | expr e =>
      cases ss with
      | nil =>
        obtain ⟨m, h₁, hret⟩ := hc
        exact (moves_resolved hap hn e p m 0 exits h₁).seq (stop_return hret)
      | cons s' ss => exact hrest hc
    | _ => exact hrest hc

theorem protos_of_compileSource {p : Program} (h : compileSource p = .ok c) : c.protos = [] := by
  unfold compileSource at h
  rcases hr : resolve p with ⟨ss, n⟩
  rw [hr] at h
  dsimp only at h
  split at h
  · cases h
  · obtain ⟨c', h₁, h₂⟩ := bind_ok.mp h
    split at h₂
    · cases h₂
    · cases pure_ok.mp h₂
      rfl

/-- What the compiler builds, the loader takes. -/
theorem compile_verified (p : Program) (c : Chunk) (h : compileSource p = .ok c) :
    c.verify = .ok () := by
  obtain ⟨hcode, hslots⟩ := fileCode_of_compileSource h
  have hap : Resolver.Apart ⟨[], 0⟩ :=
    ⟨fun sc hsc => absurd hsc List.not_mem_nil, fun sc hsc => absurd hsc List.not_mem_nil, .nil⟩
  obtain ⟨is, hw⟩ := Whole.of_spans (spans_file p hap (Nat.le_of_eq hslots.symm) hcode)
  refine bind_ok.mpr ⟨(), hw.verifyChunk, ?_⟩
  rw [protos_of_compileSource h]
  rfl

theorem compile_verified_countTo : countToChunk.verify = .ok () :=
  compile_verified countTo countToChunk compileSource_countTo

end AScript.Compile
