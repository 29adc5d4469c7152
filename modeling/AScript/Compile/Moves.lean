import AScript.Compile.Spans

namespace AScript.Compile

open AScript.Lib AScript.Syntax AScript.Bytecode

variable {c : Chunk} {p q d : Nat} {exits : Points} {land : Option Nat}

structure Plain (c : Chunk) (op : Op) (p pops pushes : Nat) : Prop where
  instr : op ≠ .«break»
  effect : c.opStackPopsPushes (p + 1) op = ⟨pops, pushes⟩
  operands : ∀ is, c.checkOperands is 0 ⟨p, op, p + 1⟩ = .ok ()
  successors : ∀ is, c.successors is ⟨p, op, p + 1⟩ =
    (do return [← Chunk.pushFallthrough is ⟨p, op, p + 1⟩])

theorem pushFallthrough_ok {is : List Instr} {i : Instr}
    (h : (Chunk.resolve is (Chunk.nextOffset i)).isSome) :
    ∃ j, Chunk.resolve is (Chunk.nextOffset i) = some j ∧ Chunk.pushFallthrough is i = .ok j := by
  obtain ⟨j, hj⟩ := Option.isSome_iff_exists.mp h
  exact ⟨j, hj, by rw [Chunk.pushFallthrough, hj]⟩

theorem pushSucc_ok (off : Nat) {is : List Instr} {t : Nat} (h : (Chunk.resolve is t).isSome) :
    ∃ j, Chunk.resolve is t = some j ∧ c.pushSucc is off t = .ok j := by
  obtain ⟨j, hj⟩ := Option.isSome_iff_exists.mp h
  have hb : c.isBoundary is t = true := by
    rw [Chunk.isBoundary, Bool.or_eq_true, List.any_eq_true]
    exact .inr ⟨is.get j, List.get_mem .., decide_eq_true (Chunk.resolve_off hj)⟩
  exact ⟨j, hj, by rw [Chunk.pushSucc, if_pos hb, hj]⟩

theorem Plain.flows {op : Op} {pops pushes : Nat} (h : Plain c op p pops pushes) :
    Flows c ⟨p, op, p + 1⟩ ⟨pops, pushes⟩ [p + 1 + op.operandWidth] where
  effect := h.effect
  operands is _ := h.operands is
  successors is ht := by
    obtain ⟨j, hj, hp⟩ := pushFallthrough_ok (i := ⟨p, op, p + 1⟩) (ht _ (.head _))
    rw [h.successors, hp]
    simp only [Chunk.nextOffset] at hj
    simp only [List.filterMap_cons, hj, List.filterMap_nil]
    rfl
  falls := .inr (.head _)

theorem checkJump_ok {is : List Instr} {off site t : Nat} (hj : JumpsTo c site t)
    (ht : t ≤ c.code.length ∧ c.isBoundary is t = true) : c.checkJump is off site = .ok () := by
  rw [JumpsTo] at hj
  simp only [Chunk.checkJump, hj]
  rw [if_neg (by omega), Int.toNat_natCast, if_pos ht.2]

theorem flows_jump {op : Op} {t : Nat} (ho : op = .jump ∨ op = .loop)
    (hj : JumpsTo c (p + 1) t) : Flows c ⟨p, op, p + 1⟩ ⟨0, 0⟩ [t] where
  effect := by rcases ho with rfl | rfl <;> rfl
  operands is ht := by
    have hc : c.checkJump is p (p + 1) = .ok () :=
      checkJump_ok hj (ht t (.head _))
    rcases ho with rfl | rfl <;> exact hc
  successors is ht := by
    obtain ⟨j, hr, hp⟩ := pushSucc_ok (c := c) p (ht t (.head _))
    have hs : c.successors is ⟨p, op, p + 1⟩ =
        (do return [← c.pushSucc is p (c.jumpTarget (p + 1))]) := by
      rcases ho with rfl | rfl <;> rfl
    rw [hs, hj.jumpTarget, hp]
    simp only [List.filterMap_cons, hr, List.filterMap_nil]
    rfl
  falls := .inl (by rcases ho with rfl | rfl <;> rfl)

theorem flows_branch {op : Op} {t : Nat}
    (ho : op = .jumpIfFalse ∨ op = .jumpIfTrue ∨ op = .jumpIfNotNil)
    (hj : JumpsTo c (p + 1) t) : Flows c ⟨p, op, p + 1⟩ ⟨1, 0⟩ [t, p + 1 + op.operandWidth] where
  effect := by rcases ho with rfl | rfl | rfl <;> rfl
  operands is ht := by
    have hc : c.checkJump is p (p + 1) = .ok () := checkJump_ok hj (ht t (.head _))
    rcases ho with rfl | rfl | rfl <;> exact hc
  successors is ht := by
    obtain ⟨j, hr, hp⟩ := pushSucc_ok (c := c) p (ht t (.head _))
    obtain ⟨k, hk, hf⟩ := pushFallthrough_ok (i := ⟨p, op, p + 1⟩) (ht _ (.tail _ (.head _)))
    have hs : c.successors is ⟨p, op, p + 1⟩ = (do
        let t ← c.pushSucc is p (c.jumpTarget (p + 1))
        return [t, ← Chunk.pushFallthrough is ⟨p, op, p + 1⟩]) := by
      rcases ho with rfl | rfl | rfl <;> rfl
    rw [hs, hj.jumpTarget, hp, hf]
    simp only [Chunk.nextOffset] at hk
    simp only [List.filterMap_cons, hr, hk, List.filterMap_nil]
    rfl
  falls := .inr (.tail _ (.head _))

namespace Spans

theorem plain {op : Op} {pops pushes : Nat} (ho : OpAt c op p q) (h : Plain c op p pops pushes) :
    Spans c p (d + pops) q (some (d + pushes)) exits := by
  refine .instr ho h.instr h.flows (Nat.le_add_left ..) (List.forall_mem_singleton.mpr (.inl ?_))
  exact ⟨ho.2.symm, by rw [Nat.add_sub_cancel]⟩

theorem jump {op : Op} {t : Nat} (ho : op = .jump ∨ op = .loop) (hj : OpJump c op t p q)
    (ht : exits t d) : Spans c p d q land exits :=
  .instr hj.1 (by rintro rfl; simp at ho) (flows_jump ho hj.2) (Nat.zero_le d)
    (List.forall_mem_singleton.mpr (.inr ht))

theorem branch {op : Op} {t : Nat} (ho : op = .jumpIfFalse ∨ op = .jumpIfTrue ∨ op = .jumpIfNotNil)
    (hj : OpJump c op t p q) (ht : exits t d) : Spans c p (d + 1) q (some d) exits := by
  refine .instr hj.1 (by rintro rfl; simp at ho) (flows_branch ho hj.2) (Nat.le_add_left ..) ?_
  refine List.forall_mem_cons.mpr ⟨.inr ht, List.forall_mem_singleton.mpr (.inl ?_)⟩
  exact ⟨hj.1.2.symm, rfl⟩

theorem stop {op : Op} {eff : Effect} (ho : OpAt c op p q) (hb : op ≠ .«break»)
    (hf : Flows c ⟨p, op, p + 1⟩ eff []) (hp : eff.pops ≤ d) : Spans c p d q land exits :=
  .instr ho hb hf hp fun _ ht => absurd ht List.not_mem_nil

end Spans

theorem inRange_ok {off index len : Nat} {kind : String} (h : index < len) :
    Chunk.inRange off kind index len = .ok () := if_pos h

theorem checkConst_ok {off idx : Nat} {k : Const} (h : c.consts[idx]? = some k) :
    c.checkConst off idx = .ok () :=
  inRange_ok (List.getElem?_eq_some_iff.mp h).1

theorem checkNameConst_ok {off idx : Nat} {x : String}
    (h : c.consts[idx]? = some (Literal.str x).const) : c.checkNameConst off idx = .ok () := by
  refine bind_ok.mpr ⟨(), checkConst_ok h, ?_⟩
  rw [h]
  rfl

def namesConst : Op → Option Effect
  | .getGlobal => some ⟨0, 1⟩
  | .defineGlobal => some ⟨1, 0⟩
  | .setGlobal | .instanceOfType | .getProp | .getPropOpt => some ⟨1, 1⟩
  | .setProp => some ⟨2, 1⟩
  | _ => none

theorem plain_name {op : Op} {pops pushes : Nat} {x : String}
    (hn : namesConst op = some ⟨pops, pushes⟩)
    (hc : c.consts[c.readU16 (p + 1)]? = some (Literal.str x).const) :
    Plain c op p pops pushes := by
  have hk : c.checkNameConst p (c.readU16 (p + 1)) = .ok () := checkNameConst_ok hc
  cases op with
  | getGlobal | defineGlobal | setGlobal | instanceOfType | getProp | getPropOpt | setProp =>
    cases hn
    exact ⟨by decide, rfl, fun _ => hk, fun _ => rfl⟩
  | _ => cases hn

def stacksOnly : Op → Option Effect
  | .nil => some ⟨0, 1⟩
  | .pop => some ⟨1, 0⟩
  | .dup => some ⟨1, 2⟩
  | .swap => some ⟨2, 2⟩
  | .rot3 => some ⟨3, 3⟩
  | .neg | .not | .bitNot => some ⟨1, 1⟩
  | .setIndex => some ⟨3, 1⟩
  | .add | .sub | .mul | .div | .mod | .pow | .lt | .le | .gt | .ge | .eq | .ne | .bitAnd | .bitOr
  | .bitXor | .shl | .shr | .wrapAdd | .wrapSub | .wrapMul | .instanceOf | .getIndex =>
    some ⟨2, 1⟩
  | _ => none

theorem plain_stacksOnly {op : Op} {pops pushes : Nat}
    (hn : stacksOnly op = some ⟨pops, pushes⟩) : Plain c op p pops pushes := by
  cases op with
  | nil | pop | dup | swap | rot3 | neg | not | bitNot | setIndex | add | sub | mul | div | mod
  | pow | lt | le | gt | ge | eq | ne | bitAnd | bitOr | bitXor | shl | shr | wrapAdd | wrapSub
  | wrapMul | instanceOf | getIndex =>
    cases hn
    exact ⟨by decide, rfl, fun _ => rfl, fun _ => rfl⟩
  | _ => cases hn

theorem stacksOnly_unaryOp (op : UnOp) : stacksOnly (unaryOp op) = some ⟨1, 1⟩ := by
  cases op <;> rfl

theorem stacksOnly_binaryOp {op : BinOp} {o : Op} (h : binaryOp op = some o) :
    stacksOnly o = some ⟨2, 1⟩ := by
  cases op <;> cases h <;> rfl

theorem branch_shortCircuitOp {op : BinOp} {o : Op} (h : shortCircuitOp op = some o) :
    o = .jumpIfFalse ∨ o = .jumpIfTrue ∨ o = .jumpIfNotNil := by
  cases op <;> cases h <;> simp

def Moves (c : Chunk) (code : Nat → Nat → Prop) (pops pushes : Nat) : Prop :=
  ∀ p q d exits, code p q → Spans c p (d + pops) q (some (d + pushes)) exits

def MovesChain (c : Chunk) (code : ChainCode) : Prop :=
  ∀ sink p q d exits, code sink p q → (∀ t, sink = some t → exits t (d + 1)) →
    Spans c p d q (some (d + 1)) exits

def InFrame (c : Chunk) (x : NameUse) : Prop :=
  ∀ slot, x.resolution = .local slot → slot < c.slotCount.toNat

theorem moves_stacksOnly {op : Op} {pops pushes : Nat} (hn : stacksOnly op = some ⟨pops, pushes⟩) :
    Moves c (OpAt c op) pops pushes :=
  fun _ _ _ _ ho => .plain ho (plain_stacksOnly hn)

theorem moves_name {op : Op} {pops pushes : Nat} {x : String}
    (hn : namesConst op = some ⟨pops, pushes⟩) : Moves c (OpConst c op (.str x)) pops pushes :=
  fun _ _ _ _ ho => .plain ho.1 (plain_name hn ho.2)

theorem moves_const (l : Literal) : Moves c (OpConst c .const l) 0 1 :=
  fun _ _ _ _ ho => .plain ho.1 ⟨by decide, rfl, fun _ => checkConst_ok ho.2, fun _ => rfl⟩

theorem moves_getLocal {slot : Nat} (hs : slot < c.slotCount.toNat) :
    Moves c (OpU16 c .getLocal slot) 0 1 :=
  fun _ _ _ _ ho => .plain ho.1
    ⟨by decide, rfl, fun _ => inRange_ok (ho.2.symm ▸ hs), fun _ => rfl⟩

theorem moves_setLocal {slot : Nat} (hs : slot < c.slotCount.toNat) :
    Moves c (OpU16 c .setLocal slot) 1 0 :=
  fun _ _ _ _ ho => .plain ho.1
    ⟨by decide, rfl, fun _ => inRange_ok (ho.2.symm ▸ hs), fun _ => rfl⟩

theorem moves_newArray (n : Nat) : Moves c (OpU16 c .newArray n) n 1 :=
  fun p _ _ _ ho => .plain ho.1
    ⟨by decide, by rw [← ho.2]; rfl, fun _ => rfl, fun _ => rfl⟩

theorem moves_call (n : Nat) : Moves c (OpU8 c .call n) (n + 1) 1 :=
  fun p _ _ _ ho => .plain ho.1
    ⟨by decide, by rw [← ho.2]; rfl, fun _ => rfl, fun _ => rfl⟩

theorem stop_return (ho : OpAt c .«return» p q) : Spans c p (d + 1) q land exits :=
  .stop ho (by decide) ⟨rfl, fun _ _ => rfl, fun _ _ => rfl, .inl rfl⟩ (Nat.le_add_left ..)

theorem stop_immutableError {x : String} (ho : OpConst c .immutableError (.str x) p q) :
    Spans c p d q land exits :=
  .stop ho.1 (by decide) ⟨rfl, fun _ _ => checkNameConst_ok ho.2, fun _ _ => rfl, .inl rfl⟩
    (Nat.zero_le d)

theorem moves_nameRef {x : NameUse} (hx : InFrame c x) : Moves c (NameCode c x) 0 1 := by
  intro p q d exits hc
  unfold NameCode at hc
  split at hc
  next slot hs => exact moves_getLocal (hx slot hs) p q d exits hc
  · exact moves_name rfl p q d exits hc

theorem moves_storeName {x : NameUse} (hx : InFrame c x) : Moves c (StoreCode c x) 1 1 := by
  intro p q d exits hc
  unfold StoreCode at hc
  split at hc
  next slot hs =>
    split at hc
    · exact stop_immutableError hc
    · obtain ⟨m, hdup, hset⟩ := hc
      exact (moves_stacksOnly rfl p m d exits hdup).seq
        (moves_setLocal (hx slot hs) m q (d + 1) exits hset)
  · exact moves_name rfl p q d exits hc

theorem MovesChain.plain {code : ChainCode} (h : MovesChain c code) : Moves c (code none) 0 1 :=
  fun p q d exits hc => h none p q d exits hc fun t ht => by cases ht

theorem movesChain_link {needsSink : Bool} {plain : Nat → Nat → Prop}
    {link : Nat → Nat → Nat → Prop} (hp : Moves c plain 0 1)
    (hl : ∀ t p q d exits, link t p q → exits t (d + 1) → Spans c p d q (some (d + 1)) exits) :
    MovesChain c (LinkCode needsSink plain link) := by
  intro sink p q d exits hc hs
  cases sink with
  | some t => exact hl t p q d exits hc (hs t rfl)
  | none =>
    rw [LinkCode] at hc
    split at hc
    · exact (hl q p q d _ hc (.inr ⟨rfl, rfl⟩)).toEnd
    · exact hp p q d exits hc

theorem movesChain_then {obj : ChainCode} {rest : Nat → Nat → Prop} {needsSink : Bool}
    (ho : MovesChain c obj) (hr : Moves c rest 1 1) :
    MovesChain c (ThenCode obj rest needsSink) := by
  refine movesChain_link (fun p q d exits hc => ?_) fun t p q d exits hc ht => ?_
  · obtain ⟨m, h₁, h₂⟩ := hc
    exact (ho.plain p m d exits h₁).seq (hr m q d exits h₂)
  · obtain ⟨m, h₁, h₂⟩ := hc
    refine (ho (some t) p m d exits h₁ fun t' he => ?_).seq (hr m q d exits h₂)
    cases he
    exact ht

theorem movesChain_member {obj : ChainCode} {needsSink : Bool} {name : String}
    (ho : MovesChain c obj) : MovesChain c (MemberCode c obj needsSink name) :=
  movesChain_then ho (moves_name rfl)

theorem movesChain_index {base idx : ChainCode} {needsSink : Bool} (hb : MovesChain c base)
    (hi : MovesChain c idx) : MovesChain c (IndexCode c base idx needsSink) := by
  refine movesChain_then hb fun p q d exits hc => ?_
  obtain ⟨m, h₁, h₂⟩ := hc
  exact (hi.plain p m (d + 1) exits h₁).seq (moves_stacksOnly rfl m q d exits h₂)

theorem movesChain_call {callee : ChainCode} {args : Nat → Nat → Prop} {argc : Nat}
    {needsSink : Bool} (hf : MovesChain c callee) (ha : Moves c args 0 argc) :
    MovesChain c (CallCode c callee args argc needsSink) := by
  refine movesChain_then hf fun p q d exits hc => ?_
  obtain ⟨m, h₁, h₂⟩ := hc
  refine (ha p m (d + 1) exits h₁).seq ?_
  rw [show d + 1 + argc = d + (argc + 1) by omega]
  exact moves_call argc m q d exits h₂

theorem spans_guard {t : Nat} (hc : GuardCode c t p q) (ht : exits t (d + 1)) :
    Spans c p (d + 1) q (some (d + 1)) exits := by
  obtain ⟨m, m', hdup, hnotNil, hjump⟩ := hc
  refine Spans.toEnd ?_
  refine (moves_stacksOnly rfl p m d _ hdup).seq ?_
  exact (Spans.branch (.inr (.inr rfl)) hnotNil (.inr ⟨rfl, rfl⟩)).seq
    (.jump (.inl rfl) hjump (.inl ht))

theorem movesChain_optMember {obj : ChainCode} {needsSink : Bool} {name : String}
    (ho : MovesChain c obj) : MovesChain c (OptMemberCode c obj needsSink name) := by
  refine movesChain_link (fun p q d exits hc => ?_) fun t p q d exits hc ht => ?_
  · obtain ⟨m, h₁, h₂⟩ := hc
    exact (ho.plain p m d exits h₁).seq (moves_name rfl m q d exits h₂)
  · obtain ⟨m, m', h₁, h₂, h₃⟩ := hc
    refine (ho (some t) p m d exits h₁ fun t' he => ?_).seq
      ((spans_guard h₂ ht).seq (moves_name rfl m' q d exits h₃))
    cases he
    exact ht

theorem moves_value {op : AssignOp} {target value : Nat → Nat → Prop} (ht : Moves c target 0 1)
    (hv : Moves c value 0 1) : Moves c (ValueCode c op target value) 0 1 := by
  intro p q d exits hc
  unfold ValueCode at hc
  split at hc
  · exact hv p q d exits hc
  · obtain ⟨m, m', o, h₁, h₂, ho, h₃⟩ := hc
    exact (ht p m d exits h₁).seq ((hv m m' (d + 1) exits h₂).seq
      (moves_stacksOnly (stacksOnly_binaryOp ho) m' q d exits h₃))

mutual

theorem movesChain_expr {f : String → NameUse} (hf : ∀ x, InFrame c (f x)) (e : Expr String) :
    MovesChain c (Code c (e.map f)) := by
  cases e with
  | literal l => exact fun _ p q d exits hc _ => moves_const l p q d exits hc
  | nameRef x => exact fun _ p q d exits hc _ => moves_nameRef (hf x) p q d exits hc
  | paren e => exact fun _ p q d exits hc _ => (movesChain_expr hf e).plain p q d exits hc
  | unary op e =>
    intro _ p q d exits hc _
    obtain ⟨m, h₁, h₂⟩ := hc
    exact ((movesChain_expr hf e).plain p m d exits h₁).seq
      (moves_stacksOnly (stacksOnly_unaryOp op) m q d exits h₂)
  | binary op l r =>
    intro _ p q d exits hc _
    have hl := (movesChain_expr hf l).plain
    have hr := (movesChain_expr hf r).plain
    rw [Expr.map, Code] at hc
    split at hc
    next jop hj =>
      obtain ⟨m₁, m₂, m₃, m₄, h₁, hdup, hjump, hpop, h₂⟩ := hc
      refine Spans.toEnd ?_
      refine (hl p m₁ d _ h₁).seq ((moves_stacksOnly rfl m₁ m₂ d _ hdup).seq ?_)
      refine (Spans.branch (branch_shortCircuitOp hj) hjump (.inr ⟨rfl, rfl⟩)).seq ?_
      exact (moves_stacksOnly rfl m₃ m₄ d _ hpop).seq (hr m₄ q d _ h₂)
    · split at hc
      · obtain ⟨m, h₁, h₂⟩ := hc
        exact (hl p m d exits h₁).seq (moves_name rfl m q d exits h₂)
      · obtain ⟨m, m', o, h₁, h₂, ho, h₃⟩ := hc
        exact (hl p m d exits h₁).seq ((hr m m' (d + 1) exits h₂).seq
          (moves_stacksOnly (stacksOnly_binaryOp ho) m' q d exits h₃))
  | ternary cond t e =>
    intro _ p q d exits hc _
    obtain ⟨m₁, m₂, m₃, m₄, h₁, hjf, h₂, hje, h₃⟩ := hc
    refine Spans.toEnd ((Spans.toEnd ?_).seq ((movesChain_expr hf e).plain m₄ q d _ h₃))
    refine ((movesChain_expr hf cond).plain p m₁ d _ h₁).seq ?_
    refine (Spans.branch (.inl rfl) hjf (.inr ⟨rfl, rfl⟩)).seq ?_
    exact ((movesChain_expr hf t).plain m₂ m₃ d _ h₂).seq
      (.jump (.inl rfl) hje (.inl (.inr ⟨rfl, rfl⟩)))
  | assignName op x v =>
    intro _ p q d exits hc _
    obtain ⟨m, h₁, h₂⟩ := hc
    exact (moves_value (moves_nameRef (hf x)) (movesChain_expr hf v).plain p m d exits h₁).seq
      (moves_storeName (hf x) m q d exits h₂)
  | assignMember op obj field v =>
    intro _ p q d exits hc _
    obtain ⟨m₁, m₂, m₃, h₁, h₂, hswap, hset⟩ := hc
    have ho := movesChain_expr hf obj
    have hv := (movesChain_expr hf v).plain
    refine (moves_value (movesChain_member ho).plain hv p m₁ d exits h₁).seq ?_
    refine (ho.plain m₁ m₂ (d + 1) exits h₂).seq ?_
    exact (moves_stacksOnly rfl m₂ m₃ d exits hswap).seq (moves_name rfl m₃ q d exits hset)
  | assignIndex op obj idx v =>
    intro _ p q d exits hc _
    obtain ⟨m₁, m₂, m₃, m₄, h₁, h₂, h₃, hrot, hset⟩ := hc
    have ho := movesChain_expr hf obj
    have hi := movesChain_expr hf idx
    have hv := (movesChain_expr hf v).plain
    refine (moves_value (movesChain_index ho hi).plain hv p m₁ d exits h₁).seq ?_
    refine (ho.plain m₁ m₂ (d + 1) exits h₂).seq ((hi.plain m₂ m₃ (d + 2) exits h₃).seq ?_)
    exact (moves_stacksOnly rfl m₃ m₄ d exits hrot).seq (moves_stacksOnly rfl m₄ q d exits hset)
  | array es =>
    intro _ p q d exits hc _
    obtain ⟨m, h₁, h₂⟩ := hc
    exact (moves_items hf es p m d exits h₁).seq (moves_newArray _ m q d exits h₂)
  | index base idx => exact movesChain_index (movesChain_expr hf base) (movesChain_expr hf idx)
  | member obj name => exact movesChain_member (movesChain_expr hf obj)
  | optMember obj name => exact movesChain_optMember (movesChain_expr hf obj)
  | call callee args => exact movesChain_call (movesChain_expr hf callee) (moves_items hf args)

theorem moves_items {f : String → NameUse} (hf : ∀ x, InFrame c (f x)) (es : List (Expr String)) :
    Moves c (ItemsCode c (mapAll f es)) 0 (mapAll f es).length := by
  intro p q d exits hc
  cases es with
  | nil =>
    cases hc
    exact .nil p d
  | cons e es =>
    obtain ⟨m, h₁, h₂⟩ := hc
    have hlen : d + (mapAll f (e :: es)).length = d + 1 + (mapAll f es).length :=
      (Nat.succ_add_eq_add_succ d _).symm
    rw [hlen]
    exact ((movesChain_expr hf e).plain p m d exits h₁).seq (moves_items hf es m q (d + 1) exits h₂)

end

end AScript.Compile
