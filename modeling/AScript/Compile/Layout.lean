import AScript.Compile.Grow

namespace AScript.Compile

open AScript.Lib AScript.Syntax AScript.Bytecode Compiler

variable {c c' : Compiler}

theorem operandWidth_unaryOp (op : UnOp) : (unaryOp op).operandWidth = 0 := by
  cases op <;> rfl

theorem operandWidth_binaryOp {op : BinOp} (h : binaryOp op = some o) : o.operandWidth = 0 := by
  cases op <;> cases h <;> rfl

theorem operandWidth_shortCircuitOp {op : BinOp} (h : shortCircuitOp op = some o) :
    o.operandWidth = 2 := by
  cases op <;> cases h <;> rfl

theorem lays_jump (c : Compiler) (op : Op) (hw : op.operandWidth = 2) :
    Lays c (c.emitJump op).2 [(c.emitJump op).1] [] fun C => ∀ t,
      JumpsTo C (c.emitJump op).1 t → OpJump C op t c.pos (c.emitJump op).2.pos :=
  (c.lays_emitJump op hw).mono fun _ h _ ht => ⟨h, ht⟩

theorem lays_emitConst (c : Compiler) (op : Op) (hw : op.operandWidth = 2) (l : Literal) :
    Lays c (c.emitConst op l) [] [] fun C => OpConst C op l c.pos (c.emitConst op l).pos := by
  have hadd := c.lays_addConst l
  have hpos := c.pos_addConst l
  refine ⟨hadd.1.trans (grows_write _ _), fun C ho hf => ?_⟩
  have hf' : Fills C (c.addConst l).2 c.pos [] :=
    Fills.left (show Fills C _ _ ([] ++ []) from hf) (grows_write _ _)
  obtain ⟨hlt, hget⟩ := hadd.2 C ho hf'
  have hemit := ((c.addConst l).2.lays_emitU16 op hw hlt).2 C ho (by rwa [hpos])
  rw [hpos] at hemit
  obtain ⟨hop, hk⟩ := hemit
  exact ⟨hop, by rwa [hk]⟩

theorem lays_emitSlot {op : Op} (hw : op.operandWidth = 2) (h : c.emitSlot op slot = .ok c') :
    Lays c c' [] [] fun C => OpU16 C op slot c.pos c'.pos := by
  unfold emitSlot at h
  split at h
  · next hlt =>
    cases h
    exact c.lays_emitU16 op hw hlt
  · cases h

theorem lays_nameRef {x : NameUse} (h : c.compileNameRef x = .ok c') :
    Lays c c' [] [] fun C => NameCode C x c.pos c'.pos := by
  obtain ⟨text, resolution, immutable⟩ := x
  cases resolution with
  | «local» slot => exact lays_emitSlot rfl h
  | global =>
    cases h
    exact lays_emitConst c _ rfl _

theorem lays_storeName {x : NameUse} (h : c.storeName x = .ok c') :
    Lays c c' [] [] fun C => StoreCode C x c.pos c'.pos := by
  obtain ⟨text, resolution, immutable⟩ := x
  cases resolution with
  | «local» slot =>
    cases immutable with
    | true =>
      cases h
      exact lays_emitConst c _ rfl _
    | false =>
      exact ((c.lays_emit _ rfl).seq (lays_emitSlot rfl h)).mono fun C ⟨hd, hs⟩ => ⟨_, hd, hs⟩
  | global =>
    cases h
    exact lays_emitConst c _ rfl _

def Links (code : Chunk → ChainCode) (sink : Option (List Nat)) (c c' : Compiler)
    (sites : List Nat) : Prop :=
  ∃ new, sites = sink.getD [] ++ new ∧ (sink = none → new = []) ∧
    Lays c c' new [] fun C => ∀ t, (∀ s ∈ new, JumpsTo C s t) →
      code C (sink.map fun _ => t) c.pos c'.pos

def Linked (code : Chunk → ChainCode) (comp : Nat → Option (List Nat) → Compiler → Compiled) :
    Prop :=
  ∀ left sink c c' sites, comp left sink c = .ok (c', sites) → Links code sink c c' sites

namespace Links

variable {code : Chunk → ChainCode}

theorem of_lays {sink : Option (List Nat)}
    (h : Lays c c' [] [] fun C => ∀ k, code C k c.pos c'.pos) :
    Links code sink c c' (sink.getD []) :=
  ⟨[], by simp, fun _ => rfl, h.mono fun _ hc _ _ => hc _⟩

theorem lays (h : Links code none c c' sites) :
    Lays c c' [] [] fun C => code C none c.pos c'.pos := by
  obtain ⟨new, -, hn, hl⟩ := h
  cases hn rfl
  exact hl.mono fun C hc => hc 0 fun _ hs => absurd hs List.not_mem_nil

end Links

theorem nested_ok {body : Nat → Except CompileError α} (h : nested body left = .ok a) :
    ∃ left, body left = .ok a := by
  cases left with
  | zero => cases h
  | succ left => exact ⟨left, h⟩

theorem Linked.whole {code : Chunk → Nat → Nat → Prop}
    {body : Nat → Compiler → Except CompileError Compiler}
    (hb : ∀ left c c', body left c = .ok c' → Lays c c' [] [] fun C => code C c.pos c'.pos) :
    Linked (fun C _ => code C) (compileWhole body) := by
  intro left sink c c' sites h
  obtain ⟨left, h⟩ := nested_ok h
  obtain ⟨c₁, h₁, h₂⟩ := bind_ok.mp h
  cases pure_ok.mp h₂
  exact .of_lays ((hb left c c' h₁).mono fun C hC _ => hC)

theorem Linked.link {plainCode : Chunk → Nat → Nat → Prop}
    {linkCode : Chunk → Nat → Nat → Nat → Prop}
    {plain : Nat → Compiler → Except CompileError Compiler}
    {link : Nat → List Nat → Compiler → Compiled} (needsSink : Bool)
    (hp : ∀ left c c', plain left c = .ok c' → Lays c c' [] [] fun C => plainCode C c.pos c'.pos)
    (hl : ∀ left sink c c' sites, link left sink c = .ok (c', sites) →
      ∃ new, sites = sink ++ new ∧ Lays c c' new [] fun C => ∀ t,
        (∀ s ∈ new, JumpsTo C s t) → linkCode C t c.pos c'.pos) :
    Linked (fun C => LinkCode needsSink (plainCode C) (linkCode C))
      (compileLink needsSink plain link) := by
  intro left sink c c' sites h
  unfold compileLink at h
  cases sink with
  | some sink =>
    obtain ⟨new, hs, hlay⟩ := hl left sink c c' sites h
    exact ⟨new, hs, fun hn => (by cases hn), hlay⟩
  | none =>
    obtain ⟨left, h⟩ := nested_ok h
    cases needsSink with
    | true =>
      simp only [if_true] at h
      obtain ⟨⟨c₁, sites₁⟩, h₁, h₂⟩ := bind_ok.mp h
      obtain ⟨rfl, rfl⟩ := Prod.mk.inj (pure_ok.mp h₂)
      obtain ⟨new, rfl, hlay⟩ := hl left [] c c₁ sites₁ h₁
      refine ⟨[], rfl, fun _ => rfl, ?_⟩
      refine (Lays.patchAll hlay).mono fun C ⟨hc, ht⟩ _ _ => ?_
      dsimp only
      rw [pos_patchJumps]
      exact hc _ ht
    | false =>
      simp only [Bool.false_eq_true, if_false] at h
      obtain ⟨c₁, h₁, h₂⟩ := bind_ok.mp h
      obtain ⟨rfl, rfl⟩ := Prod.mk.inj (pure_ok.mp h₂)
      exact ⟨[], rfl, fun _ => rfl, (hp left c c₁ h₁).mono fun C hc _ _ => hc⟩

variable {code : Chunk → ChainCode} {comp : Nat → Option (List Nat) → Compiler → Compiled}

theorem Linked.plain (hc : Linked code comp) (h : comp left none c = .ok r) :
    Lays c r.1 [] [] fun C => code C none c.pos r.1.pos :=
  (hc left none c r.1 r.2 h).lays

theorem Linked.inChain (hc : Linked code comp) (h : comp left (some sink) c = .ok r) :
    ∃ new, r.2 = sink ++ new ∧ Lays c r.1 new [] fun C => ∀ t,
      (∀ s ∈ new, JumpsTo C s t) → code C (some t) c.pos r.1.pos := by
  obtain ⟨new, hs, -, hl⟩ := hc left (some sink) c r.1 r.2 h
  exact ⟨new, hs, hl⟩

theorem forall_append {new new' : List Nat} {P : Nat → Prop}
    (h : ∀ s ∈ new ++ new', P s) : (∀ s ∈ new, P s) ∧ ∀ s ∈ new', P s :=
  List.forall_mem_append.mp h

theorem linked_member (hc : Linked code comp) (needsSink : Bool) (name : String) :
    Linked (fun C => MemberCode C (code C) needsSink name)
      (compileMember comp needsSink name) := by
  refine Linked.link needsSink (fun _ c c' h => ?_) fun _ sink c c' sites h => ?_
  · obtain ⟨r, h₁, h₂⟩ := bind_ok.mp h
    cases pure_ok.mp h₂
    refine ((hc.plain h₁).seq (lays_emitConst r.1 _ rfl _)).mono fun C ⟨ho, hp⟩ => ⟨_, ho, hp⟩
  · obtain ⟨r, h₁, h₂⟩ := bind_ok.mp h
    cases pure_ok.mp h₂
    obtain ⟨new, hs, hl⟩ := hc.inChain h₁
    refine ⟨new, hs, ?_⟩
    have hall := hl.seq (lays_emitConst r.1 .getProp rfl (.str name))
    rw [List.append_nil] at hall
    exact hall.mono fun C ⟨ho, hp⟩ t ht => ⟨_, ho t ht, hp⟩

theorem lays_guard (c : Compiler) (sink : List Nat) :
    ∃ site, (c.emitChainNilGuard sink).2 = sink ++ [site] ∧
      Lays c (c.emitChainNilGuard sink).1 [site] [] fun C => ∀ t, JumpsTo C site t →
        GuardCode C t c.pos (c.emitChainNilGuard sink).1.pos := by
  have h := ((c.lays_emit .dup rfl).seq
    (lays_jump (c.emit .dup) .jumpIfNotNil rfl)).seq
    (lays_jump ((c.emit .dup).emitJump .jumpIfNotNil).2 .jump rfl)
  refine ⟨_, rfl, (Lays.patchHead h).mono fun C hC t ht => ?_⟩
  obtain ⟨⟨⟨hd, hn⟩, hj⟩, hsite⟩ := hC
  exact ⟨_, _, hd, hn _ (by rw [emitChainNilGuard, pos_patchJump]; exact hsite),
    by rw [emitChainNilGuard, pos_patchJump]; exact hj t ht⟩

theorem linked_optMember (hc : Linked code comp) (needsSink : Bool) (name : String) :
    Linked (fun C => OptMemberCode C (code C) needsSink name)
      (compileOptMember comp needsSink name) := by
  refine Linked.link needsSink (fun _ c c' h => ?_) fun _ sink c c' sites h => ?_
  · obtain ⟨r, h₁, h₂⟩ := bind_ok.mp h
    cases pure_ok.mp h₂
    refine ((hc.plain h₁).seq (lays_emitConst r.1 _ rfl _)).mono fun C ⟨ho, hp⟩ => ⟨_, ho, hp⟩
  · obtain ⟨r, h₁, h₂⟩ := bind_ok.mp h
    cases pure_ok.mp h₂
    obtain ⟨new, hs, hl⟩ := hc.inChain h₁
    obtain ⟨site, hsite, hg⟩ := lays_guard r.1 r.2
    refine ⟨new ++ [site], hsite.trans (by rw [hs, List.append_assoc]), ?_⟩
    have hall := (hl.seq hg).seq
      (lays_emitConst (r.1.emitChainNilGuard r.2).1 .getProp rfl (.str name))
    rw [List.append_nil] at hall
    refine hall.mono fun C hC t ht => ?_
    obtain ⟨⟨ho, hG⟩, hp⟩ := hC
    obtain ⟨hn, hlast⟩ := forall_append ht
    exact ⟨_, _, ho t hn, hG t (hlast site (.head _)), hp⟩

theorem linked_index {code' : Chunk → ChainCode}
    {comp' : Nat → Option (List Nat) → Compiler → Compiled}
    (hc : Linked code comp) (hi : Linked code' comp') (needsSink : Bool) :
    Linked (fun C => IndexCode C (code C) (code' C) needsSink)
      (compileIndex comp comp' needsSink) := by
  refine Linked.link needsSink (fun _ c c' h => ?_) fun _ sink c c' sites h => ?_
  · obtain ⟨r, h₁, h⟩ := bind_ok.mp h
    obtain ⟨r', h₂, h₃⟩ := bind_ok.mp h
    cases pure_ok.mp h₃
    exact (((hc.plain h₁).seq (hi.plain h₂)).seq (r'.1.lays_emit _ rfl)).mono
      fun C hC => ⟨_, hC.1.1, _, hC.1.2, hC.2⟩
  · obtain ⟨r, h₁, h⟩ := bind_ok.mp h
    obtain ⟨r', h₂, h₃⟩ := bind_ok.mp h
    cases pure_ok.mp h₃
    obtain ⟨new, hs, hl⟩ := hc.inChain h₁
    refine ⟨new, hs, ?_⟩
    have hall := (hl.seq (hi.plain h₂)).seq (r'.1.lays_emit .getIndex rfl)
    rw [List.append_nil, List.append_nil] at hall
    exact hall.mono fun C hC t ht => ⟨_, hC.1.1 t ht, _, hC.1.2, hC.2⟩

theorem linked_call {argsCode : Chunk → Nat → Nat → Prop} (argc : Nat)
    {args : Nat → Compiler → Except CompileError (Compiler × Nat)} (hc : Linked code comp)
    (ha : ∀ left c r, args left c = .ok r → r.2 = argc ∧ argc < 2 ^ 8 ∧
      Lays c r.1 [] [] fun C => argsCode C c.pos r.1.pos) (needsSink : Bool) :
    Linked (fun C => CallCode C (code C) (argsCode C) argc needsSink)
      (compileCall comp args needsSink) := by
  refine Linked.link needsSink (fun _ c c' h => ?_) fun _ sink c c' sites h => ?_
  · obtain ⟨r, h₁, h⟩ := bind_ok.mp h
    obtain ⟨r', h₂, h₃⟩ := bind_ok.mp h
    cases pure_ok.mp h₃
    obtain ⟨hn, hlt, hl⟩ := ha _ r.1 r' h₂
    rw [hn]
    exact (((hc.plain h₁).seq hl).seq (r'.1.lays_emitU8 _ rfl hlt)).mono
      fun C hC => ⟨_, hC.1.1, _, hC.1.2, hC.2⟩
  · obtain ⟨r, h₁, h⟩ := bind_ok.mp h
    obtain ⟨r', h₂, h₃⟩ := bind_ok.mp h
    cases pure_ok.mp h₃
    obtain ⟨hn, hlt, hl⟩ := ha _ r.1 r' h₂
    rw [hn]
    obtain ⟨new, hs, hl₁⟩ := hc.inChain h₁
    refine ⟨new, hs, ?_⟩
    have hall := (hl₁.seq hl).seq (r'.1.lays_emitU8 .call rfl hlt)
    rw [List.append_nil, List.append_nil] at hall
    exact hall.mono fun C hC t ht => ⟨_, hC.1.1 t ht, _, hC.1.2, hC.2⟩

theorem lays_value {op : AssignOp} {target value : Compiler → Compiled}
    (targetCode valueCode : Chunk → Nat → Nat → Prop)
    (ht : ∀ c r, target c = .ok r → Lays c r.1 [] [] fun C => targetCode C c.pos r.1.pos)
    (hv : ∀ c r, value c = .ok r → Lays c r.1 [] [] fun C => valueCode C c.pos r.1.pos)
    (h : compileValue op target value c = .ok c') :
    Lays c c' [] [] fun C => ValueCode C op (targetCode C) (valueCode C) c.pos c'.pos := by
  unfold compileValue at h
  unfold ValueCode
  cases hb : op.binop with
  | none =>
    simp only [hb] at h
    obtain ⟨r, h₁, h₂⟩ := bind_ok.mp h
    cases pure_ok.mp h₂
    exact hv c r h₁
  | some b =>
    simp only [hb] at h
    obtain ⟨r, h₁, h⟩ := bind_ok.mp h
    obtain ⟨r', h₂, h₃⟩ := bind_ok.mp h
    cases ho : binaryOp b with
    | none =>
      simp only [ho] at h₃
      cases h₃
    | some o =>
      simp only [ho] at h₃
      cases pure_ok.mp h₃
      exact (((ht c r h₁).seq (hv r.1 r' h₂)).seq
        (r'.1.lays_emit _ (operandWidth_binaryOp ho))).mono
        fun C hC => ⟨_, _, _, hC.1.1, hC.1.2, ho, hC.2⟩

mutual

theorem linked_expr (e : Expr NameUse) : Linked (fun C => Code C e) (compileExpr e) := by
  cases e with
  | literal l =>
    refine .whole fun left c c' h => ?_
    cases pure_ok.mp h
    exact lays_emitConst c _ rfl l
  | nameRef x => exact .whole fun left c c' h => lays_nameRef h
  | paren e =>
    refine .whole fun left c c' h => ?_
    obtain ⟨r, h₁, h₂⟩ := bind_ok.mp h
    cases pure_ok.mp h₂
    exact (linked_expr e).plain h₁
  | unary op e =>
    refine .whole fun left c c' h => ?_
    obtain ⟨r, h₁, h₂⟩ := bind_ok.mp h
    cases pure_ok.mp h₂
    exact (((linked_expr e).plain h₁).seq (r.1.lays_emit _ (operandWidth_unaryOp op))).mono
      fun C hC => ⟨_, hC⟩
  | binary op l r =>
    refine .whole fun left c c' h => ?_
    cases hs : shortCircuitOp op with
    | some jop =>
      simp only [hs] at h
      obtain ⟨r₁, h₁, h⟩ := bind_ok.mp h
      obtain ⟨r₂, h₂, h₃⟩ := bind_ok.mp h
      cases pure_ok.mp h₃
      have hall := ((((linked_expr l).plain h₁).seq (r₁.1.lays_emit .dup rfl)).seq
        (lays_jump (r₁.1.emit .dup) _ (operandWidth_shortCircuitOp hs))).seq
        ((((r₁.1.emit .dup).emitJump jop).2.lays_emit .pop rfl).seq
          ((linked_expr r).plain h₂))
      refine (Lays.patchHead hall).mono fun C hC => ?_
      obtain ⟨⟨⟨⟨hl, hd⟩, hj⟩, hp, hr⟩, ht⟩ := hC
      simp only [pos_patchJump]
      exact ⟨_, _, _, _, hl, hd, hj _ ht, hp, hr⟩
    | none =>
      simp only [hs] at h
      cases ht : (if op = .instanceOf then r.reservedTypeName (·.text) else none) with
      | some ty =>
        simp only [ht] at h
        obtain ⟨r₁, h₁, h₂⟩ := bind_ok.mp h
        cases pure_ok.mp h₂
        exact (((linked_expr l).plain h₁).seq
          (lays_emitConst r₁.1 .instanceOfType rfl (.str ty))).mono fun C hC => ⟨_, hC⟩
      | none =>
        simp only [ht] at h
        obtain ⟨r₁, h₁, h⟩ := bind_ok.mp h
        obtain ⟨r₂, h₂, h₃⟩ := bind_ok.mp h
        cases ho : binaryOp op with
        | none =>
          simp only [ho] at h₃
          cases h₃
        | some o =>
          simp only [ho] at h₃
          cases pure_ok.mp h₃
          exact ((((linked_expr l).plain h₁).seq ((linked_expr r).plain h₂)).seq
            (r₂.1.lays_emit _ (operandWidth_binaryOp ho))).mono
            fun C hC => ⟨_, _, _, hC.1.1, hC.1.2, rfl, hC.2⟩
  | ternary cond t e =>
    refine .whole fun left c c' h => ?_
    obtain ⟨r₁, h₁, h⟩ := bind_ok.mp h
    obtain ⟨r₂, h₂, h⟩ := bind_ok.mp h
    obtain ⟨r₃, h₃, h₄⟩ := bind_ok.mp h
    cases pure_ok.mp h₄
    have hthen := ((((linked_expr cond).plain h₁).seq (lays_jump r₁.1 .jumpIfFalse rfl)).seq
      ((linked_expr t).plain h₂)).seq (lays_jump r₂.1 .jump rfl)
    have hall := (Lays.patchHead hthen).seq ((linked_expr e).plain h₃)
    refine (Lays.patchHead hall).mono fun C hC => ?_
    obtain ⟨⟨⟨⟨⟨⟨hc, hjf⟩, ht⟩, hje⟩, hf⟩, he⟩, hend⟩ := hC
    simp only [pos_patchJump] at hf he ⊢
    exact ⟨_, _, _, _, hc, hjf _ hf, ht, hje _ hend, he⟩
  | assignName op x v =>
    refine .whole fun left c c' h => ?_
    obtain ⟨c₁, h₁, h₂⟩ := bind_ok.mp h
    have htarget : Linked (fun C _ => NameCode C x) (compileWhole fun _ c => c.compileNameRef x) :=
      .whole fun left c c' h => lays_nameRef h
    have hv := lays_value (fun C => NameCode C x) (fun C => Code C v none)
      (fun c r hr => htarget.plain hr) (fun c r hr => (linked_expr v).plain hr) h₁
    exact (hv.seq (lays_storeName h₂)).mono fun C hC => ⟨_, hC⟩
  | assignMember op obj field v =>
    refine .whole fun left c c' h => ?_
    obtain ⟨c₁, h₁, h⟩ := bind_ok.mp h
    obtain ⟨r, h₂, h₃⟩ := bind_ok.mp h
    cases pure_ok.mp h₃
    have hv := lays_value _ _ (fun c r hr => (linked_member (linked_expr obj) _ field).plain hr)
      (fun c r hr => (linked_expr v).plain hr) h₁
    exact ((hv.seq ((linked_expr obj).plain h₂)).seq
      ((r.1.lays_emit .swap rfl).seq
        (lays_emitConst (r.1.emit .swap) .setProp rfl (.str field)))).mono
      fun C hC => ⟨_, _, _, hC.1.1, hC.1.2, hC.2⟩
  | assignIndex op obj idx v =>
    refine .whole fun left c c' h => ?_
    obtain ⟨c₁, h₁, h⟩ := bind_ok.mp h
    obtain ⟨r, h₂, h⟩ := bind_ok.mp h
    obtain ⟨r', h₃, h₄⟩ := bind_ok.mp h
    cases pure_ok.mp h₄
    have hv := lays_value _ _
      (fun c r hr => (linked_index (linked_expr obj) (linked_expr idx) _).plain hr)
      (fun c r hr => (linked_expr v).plain hr) h₁
    exact (((hv.seq ((linked_expr obj).plain h₂)).seq ((linked_expr idx).plain h₃)).seq
      ((r'.1.lays_emit .rot3 rfl).seq
        ((r'.1.emit .rot3).lays_emit .setIndex rfl))).mono
      fun C hC => ⟨_, _, _, _, hC.1.1.1, hC.1.1.2, hC.1.2, hC.2⟩
  | array es =>
    refine .whole fun left c c' h => ?_
    obtain ⟨r, h₁, h₂⟩ := bind_ok.mp h
    cases pure_ok.mp h₂
    obtain ⟨hn, hlt, hl⟩ := lays_items es (by decide) h₁
    rw [Nat.zero_add] at hn
    have hlt' : r.2 < 2 ^ 16 := hlt
    rw [hn] at hlt' ⊢
    exact (hl.seq (r.1.lays_emitU16 .newArray rfl hlt')).mono fun C hC => ⟨_, hC⟩
  | index base idx => exact linked_index (linked_expr base) (linked_expr idx) _
  | member obj name => exact linked_member (linked_expr obj) _ name
  | optMember obj name => exact linked_optMember (linked_expr obj) _ name
  | call callee args =>
    simp only [compileExpr]
    split
    · intro left sink c c' sites h
      cases h
    · refine linked_call args.length (linked_expr callee) (fun left c r hr => ?_) _
      obtain ⟨hn, hlt, hl⟩ := lays_items args (by decide) hr
      rw [Nat.zero_add] at hn
      exact ⟨hn, by rwa [hn] at hlt, hl⟩

theorem lays_items (es : List (Expr NameUse)) {limit n : Nat} {error : CompileError}
    {c : Compiler} {r : Compiler × Nat} (hn : n < limit)
    (h : compileItems limit error es left n c = .ok r) :
    r.2 = n + es.length ∧ r.2 < limit ∧
      Lays c r.1 [] [] fun C => ItemsCode C es c.pos r.1.pos := by
  cases es with
  | nil =>
    cases pure_ok.mp h
    exact ⟨rfl, hn, (Lays.refl c).mono fun _ _ => rfl⟩
  | cons e es =>
    obtain ⟨⟨c₁, sites⟩, h₁, h₂⟩ := bind_ok.mp h
    by_cases hlt : n + 1 < limit
    · simp only [if_pos hlt] at h₂
      obtain ⟨hr, hr', hl⟩ := lays_items es hlt h₂
      refine ⟨by rw [hr, List.length_cons]; omega, hr', ?_⟩
      exact (((linked_expr e).plain h₁).seq hl).mono fun C hC => ⟨_, hC⟩
    · simp only [if_neg hlt] at h₂
      cases h₂

end

end AScript.Compile
