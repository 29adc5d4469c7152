import AScript.Compile.Layout

namespace AScript.Compile

open AScript.Lib AScript.Bytecode Compiler

variable {c c' c'' : Compiler}

theorem head_addBreaks (sites : List Nat) (loops : List LoopCtx) :
    (addBreaks sites loops).head?.map LoopCtx.continueTarget =
      loops.head?.map LoopCtx.continueTarget := by
  cases loops <;> rfl

def endsOf (loops : List LoopCtx) (b : Nat) : LoopEnds :=
  (loops.head?.map LoopCtx.continueTarget).map fun k => (b, k)

theorem Grows.endsOf (h : Grows c c' holes breaks) (b : Nat) :
    endsOf c'.loops b = endsOf c.loops b := by
  rw [h.loops, AScript.Compile.endsOf, head_addBreaks]
  rfl

def LaysEnds (code : Chunk → LoopEnds → Nat → Nat → Prop) (c c' : Compiler) : Prop :=
  ∃ new, (c.loops = [] → new = []) ∧
    Lays c c' new new fun C => ∀ b, (∀ s ∈ new, JumpsTo C s b) →
      code C (endsOf c.loops b) c.pos c'.pos

namespace LaysEnds

variable {code code' : Chunk → LoopEnds → Nat → Nat → Prop}

theorem of_lays (h : Lays c c' [] [] fun C => ∀ ends, code C ends c.pos c'.pos) :
    LaysEnds code c c' :=
  ⟨[], fun _ => rfl, h.mono fun _ hc _ _ => hc _⟩

theorem seq (h : LaysEnds code c c') (h' : LaysEnds code' c' c'') :
    LaysEnds (fun C ends p q => ∃ m, code C ends p m ∧ code' C ends m q) c c'' := by
  obtain ⟨new, hn, hl⟩ := h
  obtain ⟨new', hn', hl'⟩ := h'
  refine ⟨new ++ new', fun he => ?_, (hl.seq hl').mono fun C hC b hb => ?_⟩
  · rw [hn he, hn' (by rw [hl.1.loops, he]; rfl)]
    rfl
  · obtain ⟨h₁, h₂⟩ := forall_append hb
    refine ⟨_, hC.1 b h₁, ?_⟩
    rw [← hl.1.endsOf b]
    exact hC.2 b h₂

end LaysEnds

theorem lays_branch {thn : Chunk → LoopEnds → Nat → Nat → Prop} {cond : Chunk → Nat → Nat → Prop}
    (hc : Lays c c' [] [] fun C => cond C c.pos c'.pos)
    (ht : LaysEnds thn (c'.emitJump .jumpIfFalse).2 c'') :
    ∃ new, (c.loops = [] → new = []) ∧
      Lays c ((c''.emitJump .jump).2.patchJump (c'.emitJump .jumpIfFalse).1)
        (new ++ [(c''.emitJump .jump).1]) new fun C => ∀ b t,
          (∀ s ∈ new, JumpsTo C s b) → JumpsTo C (c''.emitJump .jump).1 t →
          ∃ m₁ m₂, cond C c.pos m₁ ∧ OpJump C .jumpIfFalse (c''.emitJump .jump).2.pos m₁ m₂ ∧
            thn C (endsOf c.loops b) m₂ c''.pos ∧
            OpJump C .jump t c''.pos (c''.emitJump .jump).2.pos := by
  obtain ⟨new, hn, hl⟩ := ht
  have hj := lays_jump c' .jumpIfFalse rfl
  have hbefore := hc.seq hj
  have hloops : (c'.emitJump .jumpIfFalse).2.loops = c.loops := by
    rw [hbefore.1.loops]
    exact addBreaks_nil _
  refine ⟨new, fun he => hn (hloops.trans he), ?_⟩
  have hall := (hbefore.seq hl).seq (lays_jump c'' .jump rfl)
  rw [List.append_nil] at hall
  refine (Lays.patchHead hall).mono fun C hC b t hb ht => ?_
  obtain ⟨⟨⟨⟨hcond, hjf⟩, hthn⟩, hje⟩, hf⟩ := hC
  rw [hloops] at hthn
  exact ⟨_, _, hcond, hjf _ hf, hthn b hb, hje t ht⟩

theorem lays_else {thn els : Chunk → LoopEnds → Nat → Nat → Prop} {cond : Chunk → Nat → Nat → Prop}
    {d : Compiler} (hc : Lays c c' [] [] fun C => cond C c.pos c'.pos)
    (ht : LaysEnds thn (c'.emitJump .jumpIfFalse).2 c'')
    (he : LaysEnds els ((c''.emitJump .jump).2.patchJump (c'.emitJump .jumpIfFalse).1) d) :
    LaysEnds (fun C ends p q => ∃ m₁ m₂ m₃ m₄, cond C p m₁ ∧ OpJump C .jumpIfFalse m₄ m₁ m₂ ∧
        thn C ends m₂ m₃ ∧ OpJump C .jump q m₃ m₄ ∧ els C ends m₄ q)
      c (d.patchJump (c''.emitJump .jump).1) := by
  obtain ⟨new, hn, hl⟩ := lays_branch hc ht
  obtain ⟨new', hn', hl'⟩ := he
  have hall := hl.seq hl'
  rw [List.append_assoc] at hall
  refine ⟨new ++ new', fun h => ?_, (Lays.patch hall).mono fun C hC b hb => ?_⟩
  · rw [hn h, hn' (by rw [hl.1.loops, h]; rfl)]
    rfl
  · obtain ⟨⟨hbranch, hels⟩, hend⟩ := hC
    obtain ⟨h₁, h₂⟩ := forall_append hb
    obtain ⟨m₁, m₂, hcond, hjf, hthn, hje⟩ := hbranch b _ h₁ hend
    have hels := hels b h₂
    rw [hl.1.endsOf, pos_patchJump] at hels
    rw [pos_patchJump]
    exact ⟨m₁, m₂, _, _, hcond, hjf, hthn, hje, hels⟩

theorem Lays.inLoop {holes breaks : List Nat} {P : Chunk → Prop} {t : Nat}
    (h : Lays (c.pushLoop t) c' holes breaks P) :
    c'.breakSites = breaks ∧ Lays c c'.popLoop holes [] P := by
  have hl : c'.loops = ⟨t, breaks⟩ :: c.loops := h.1.loops
  refine ⟨by rw [breakSites, hl]; rfl,
    ⟨?_, h.1.code, h.1.consts, h.1.overflow, h.1.within, h.1.apart⟩,
    fun C ho hf => h.2 C ho ⟨hf.code, hf.consts⟩⟩
  rw [popLoop, hl, addBreaks_nil]
  rfl

theorem lays_break (h : compileBreak c = .ok c') :
    LaysEnds (fun C ends p q => ∃ b k, ends = some (b, k) ∧ OpJump C .jump b p q) c c' := by
  have hj := lays_jump c .jump rfl
  cases hl : c.loops with
  | nil =>
    have hn : (c.emitJump .jump).2.loops = [] := hl
    simp only [compileBreak, hn] at h
    cases h
  | cons l ls =>
    have hn : (c.emitJump .jump).2.loops = l :: ls := hl
    simp only [compileBreak, hn] at h
    cases h
    refine ⟨[(c.emitJump .jump).1], fun he => ?_, ⟨?_, hj.1.code, hj.1.consts, hj.1.overflow,
      hj.1.within, hj.1.apart⟩, fun C ho hf b hb => ?_⟩
    · rw [hl] at he
      cases he
    · rw [addBreakSite, hn, hl]
      rfl
    · refine ⟨b, l.continueTarget, by rw [endsOf, hl]; rfl, ?_⟩
      exact hj.2 C ho ⟨hf.code, hf.consts⟩ b (hb _ (.head _))

theorem lays_continue (h : compileContinue c = .ok c') :
    LaysEnds (fun C ends p q => ∃ b k, ends = some (b, k) ∧ OpJump C .loop k p q) c c' := by
  cases hl : c.loops with
  | nil =>
    simp only [compileContinue, hl] at h
    cases h
  | cons l ls =>
    simp only [compileContinue, hl] at h
    cases h
    refine ⟨[], fun _ => rfl, (c.lays_emitLoop l.continueTarget).mono fun C hC b _ => ?_⟩
    exact ⟨b, l.continueTarget, by rw [endsOf, hl]; rfl, hC⟩

theorem lays_optional {e : Option (Expr NameUse)} (h : compileOptional e c = .ok c') :
    Lays c c' [] [] fun C => OptionalCode C e c.pos c'.pos := by
  cases e with
  | some e =>
    obtain ⟨r, h₁, h₂⟩ := bind_ok.mp h
    cases pure_ok.mp h₂
    exact (linked_expr e).plain h₁
  | none =>
    cases h
    exact c.lays_emit .nil rfl

theorem lays_let {d : Decl} {init : Option (Expr NameUse)} (h : compileLet d init c = .ok c') :
    Lays c c' [] [] fun C => LetCode C d init c.pos c'.pos := by
  obtain ⟨c₁, h₁, h₂⟩ := bind_ok.mp h
  have hinit := lays_optional h₁
  cases hs : d.slot with
  | some slot =>
    simp only [hs] at h₂
    refine (hinit.seq (lays_emitSlot rfl h₂)).mono fun C hC => ⟨_, hC.1, ?_⟩
    simp only [hs]
    exact hC.2
  | none =>
    simp only [hs] at h₂
    cases pure_ok.mp h₂
    have hadd := c₁.lays_addConst (.str d.name)
    have hpos := c₁.pos_addConst (.str d.name)
    refine ⟨(hinit.1.trans hadd.1).trans (grows_write _ _), fun C ho hf => ?_⟩
    have hf₁ : Fills C (c₁.addConst (.str d.name)).2 c.pos [] :=
      Fills.left (show Fills C _ _ ([] ++ []) from hf) (grows_write _ _)
    have hf₂ : Fills C c₁ c.pos [] := Fills.left (show Fills C _ _ ([] ++ []) from hf₁) hadd.1
    obtain ⟨hlt, hget⟩ := hadd.2 C ho (Fills.right (show Fills C _ _ ([] ++ []) from hf₁)
      hinit.1.pos_le fun s hs => absurd hs List.not_mem_nil)
    obtain ⟨hop, hmut⟩ := ((c₁.addConst (.str d.name)).2.lays_emitU16U8 .defineGlobal rfl hlt
      d.mutable).2 C ho (Fills.right (show Fills C _ _ ([] ++ []) from hf)
        (hpos ▸ hinit.1.pos_le) fun s hs => absurd hs List.not_mem_nil)
    rw [hpos] at hop hmut
    refine ⟨c₁.pos, hinit.2 C (hadd.1.overflow ho) hf₂, ?_⟩
    simp only [hs]
    exact ⟨⟨hop.1, by rw [hop.2]; exact hget⟩, hmut⟩

theorem lays_return {e : Option (Expr NameUse)} (h : compileReturn e c = .ok c') :
    Lays c c' [] [] fun C => ReturnCode C e c.pos c'.pos := by
  obtain ⟨c₁, h₁, h₂⟩ := bind_ok.mp h
  cases pure_ok.mp h₂
  exact ((lays_optional h₁).seq (c₁.lays_emit .«return» rfl)).mono fun C hC => ⟨_, hC⟩

mutual

theorem lays_stmt (s : Stmt NameUse Decl) {c c' : Compiler} (h : compileStmt s c = .ok c') :
    LaysEnds (fun C ends p q => StmtCode C ends s p q) c c' := by
  cases s with
  | expr e =>
    obtain ⟨r, h₁, h₂⟩ := bind_ok.mp h
    cases pure_ok.mp h₂
    exact .of_lays ((((linked_expr e).plain h₁).seq (r.1.lays_emit .pop rfl)).mono
      fun C hC _ => ⟨_, hC⟩)
  | letStmt d init => exact .of_lays ((lays_let h).mono fun C hC _ => hC)
  | block b => exact lays_block b h
  | ifThen cond t =>
    obtain ⟨r, h₁, h⟩ := bind_ok.mp h
    obtain ⟨c₁, h₂, h₃⟩ := bind_ok.mp h
    cases pure_ok.mp h₃
    obtain ⟨new, hn, hl⟩ := lays_branch ((linked_expr cond).plain h₁) (lays_block t h₂)
    have hend := Lays.patch hl
    rw [List.append_nil] at hend
    refine ⟨new, hn, hend.mono fun C hC b hb => ?_⟩
    obtain ⟨m₁, m₂, hcond, hjf, hthn, hje⟩ := hC.1 b _ hb hC.2
    rw [pos_patchJump] at hje
    rw [pos_patchJump, pos_patchJump]
    exact ⟨m₁, m₂, _, hcond, hjf, hthn, hje⟩
  | ifElse cond t e =>
    obtain ⟨r, h₁, h⟩ := bind_ok.mp h
    obtain ⟨c₁, h₂, h⟩ := bind_ok.mp h
    obtain ⟨c₂, h₃, h₄⟩ := bind_ok.mp h
    cases pure_ok.mp h₄
    exact lays_else ((linked_expr cond).plain h₁) (lays_block t h₂) (lays_block e h₃)
  | elseIf cond t e =>
    obtain ⟨r, h₁, h⟩ := bind_ok.mp h
    obtain ⟨c₁, h₂, h⟩ := bind_ok.mp h
    obtain ⟨c₂, h₃, h₄⟩ := bind_ok.mp h
    cases pure_ok.mp h₄
    exact lays_else ((linked_expr cond).plain h₁) (lays_block t h₂) (lays_stmt e h₃)
  | whileLoop cond b =>
    obtain ⟨r, h₁, h⟩ := bind_ok.mp h
    obtain ⟨c₁, h₂, h₃⟩ := bind_ok.mp h
    cases pure_ok.mp h₃
    have hcond := (linked_expr cond).plain h₁
    obtain ⟨new, -, hbody⟩ := lays_block b h₂
    have hturn := hbody.seq (c₁.lays_emitLoop c.pos)
    rw [List.append_nil] at hturn
    obtain ⟨hbreaks, hturn⟩ := hturn.inLoop
    have hall := (hcond.seq (lays_jump r.1 .jumpIfFalse rfl)).seq hturn
    have hend := (Lays.patchHead hall).patchAll
    refine .of_lays ?_
    rw [hbreaks]
    refine hend.mono fun C hC ends => ?_
    obtain ⟨⟨⟨⟨hcond, hjf⟩, hbody, hloop⟩, hexit⟩, hsites⟩ := hC
    rw [pos_patchJump] at hsites
    rw [pos_patchJumps, pos_patchJump]
    exact ⟨_, _, _, hcond, hjf _ hexit, hbody _ hsites, hloop⟩
  | breakStmt => exact lays_break h
  | continueStmt => exact lays_continue h
  | returnStmt e => exact .of_lays ((lays_return h).mono fun C hC _ => hC)

theorem lays_block (b : List (Stmt NameUse Decl)) {c c' : Compiler}
    (h : compileBlock b c = .ok c') :
    LaysEnds (fun C ends p q => BlockCode C ends b p q) c c' := by
  cases b with
  | nil =>
    cases h
    exact .of_lays ((Lays.refl c).mono fun _ _ _ => rfl)
  | cons s ss =>
    obtain ⟨c₁, h₁, h₂⟩ := bind_ok.mp h
    exact (lays_stmt s h₁).seq (lays_block ss h₂)

end

theorem lays_file (ss : List (Stmt NameUse Decl)) (h : compileFile ss c = .ok c')
    (hl : c.loops = []) : Lays c c' [] [] fun C => FileCode C ss c.pos c'.pos := by
  induction ss generalizing c with
  | nil =>
    cases h
    exact ((c.lays_emit .nil rfl).seq ((c.emit .nil).lays_emit .«return» rfl)).mono
      fun C hC => ⟨_, hC⟩
  | cons s ss ih =>
    have hrest : ∀ c₁, compileStmt s c = .ok c₁ → compileFile ss c₁ = .ok c' →
        Lays c c' [] [] fun C => ∃ m, StmtCode C none s c.pos m ∧ FileCode C ss m c'.pos := by
      intro c₁ h₁ h₂
      obtain ⟨new, hn, hs⟩ := lays_stmt s h₁
      cases hn hl
      have hl₁ : c₁.loops = [] := by rw [hs.1.loops, hl]; rfl
      refine (hs.seq (ih h₂ hl₁)).mono fun C hC => ⟨_, ?_, hC.2⟩
      have hstmt := hC.1 0 fun _ h => absurd h List.not_mem_nil
      rwa [endsOf, hl] at hstmt
    cases s with
    | expr e =>
      cases ss with
      | nil =>
        obtain ⟨r, h₁, h₂⟩ := bind_ok.mp h
        cases pure_ok.mp h₂
        exact (((linked_expr e).plain h₁).seq (r.1.lays_emit .«return» rfl)).mono
          fun C hC => ⟨_, hC⟩
      | cons s' ss =>
        obtain ⟨c₁, h₁, h₂⟩ := bind_ok.mp h
        exact hrest c₁ h₁ h₂
    | _ =>
      obtain ⟨c₁, h₁, h₂⟩ := bind_ok.mp h
      exact hrest c₁ h₁ h₂

theorem fileCode_of_compileSource {p : Program} {C : Chunk} (h : compileSource p = .ok C) :
    FileCode C (resolve p).1 0 C.code.length ∧ C.slotCount.toNat = (resolve p).2 := by
  unfold compileSource at h
  rcases hr : resolve p with ⟨ss, n⟩
  rw [hr] at h
  dsimp only at h ⊢
  by_cases hn : 2 ^ 16 ≤ n
  · rw [if_pos hn] at h
    cases h
  rw [if_neg hn] at h
  obtain ⟨c, h₁, h₂⟩ := bind_ok.mp h
  cases ho : c.overflow with
  | some limit =>
    simp only [ho] at h₂
    cases h₂
  | none =>
    simp only [ho] at h₂
    cases pure_ok.mp h₂
    refine ⟨(lays_file ss h₁ rfl).2 _ ho ⟨fun _ _ _ _ => rfl, List.prefix_rfl⟩, ?_⟩
    exact UInt16.toNat_ofNat_of_lt' (Nat.lt_of_not_le hn)

end AScript.Compile
