import AScript.Compile.Simulate

namespace AScript.Compile

open AScript.Lib AScript.Syntax AScript.Bytecode Engine

variable {h : Host}

theorem Yields.of_link {obj : Eval h (h.V × Bool)} {rest : h.V → Eval h h.V}
    (hy : Yields (Eval.link obj rest) (v, true)) : v = h.nil ∧ ∃ u, Yields obj (u, true) := by
  obtain ⟨⟨u, cut⟩, hobj, hr⟩ := hy.of_bind
  cases cut with
  | true =>
    cases hr.of_pure
    exact ⟨rfl, u, hobj⟩
  | false =>
    obtain ⟨x, -, hp⟩ := hr.of_bind
    cases hp.of_pure

theorem Yields.of_optLink {obj : Eval h (h.V × Bool)} {rest : h.V → Eval h h.V}
    (hy : Yields (Eval.optLink obj rest) (v, true)) : v = h.nil := by
  obtain ⟨⟨u, cut⟩, -, hr⟩ := hy.of_bind
  dsimp only at hr
  split at hr
  · cases hr.of_pure
    rfl
  · obtain ⟨x, -, hp⟩ := hr.of_bind
    cases hp.of_pure

theorem Yields.of_whole {m : Nat → Eval h h.V} (hy : Yields (Eval.whole m left) (v, true)) :
    False := by
  cases left with
  | zero =>
    obtain ⟨s, s', hs⟩ := hy
    cases hs
  | succ left =>
    obtain ⟨a, -, hp⟩ := hy.of_bind
    cases hp.of_pure

theorem cut_chain (e : Expr String) {v : h.V} (hy : Yields (evalChain e left) (v, true)) :
    v = h.nil ∧ e.hasOptional = true := by
  cases e with
  | index base idx =>
    rw [evalChain] at hy
    obtain ⟨hv, u, hu⟩ := Yields.of_link hy
    exact ⟨hv, (cut_chain base hu).2⟩
  | member obj name =>
    rw [evalChain] at hy
    obtain ⟨hv, u, hu⟩ := Yields.of_link hy
    exact ⟨hv, (cut_chain obj hu).2⟩
  | optMember obj name =>
    rw [evalChain] at hy
    exact ⟨Yields.of_optLink hy, rfl⟩
  | call callee args =>
    rw [evalChain] at hy
    obtain ⟨hv, u, hu⟩ := Yields.of_link hy
    exact ⟨hv, (cut_chain callee hu).2⟩
  | _ => cases Yields.of_whole hy

theorem length_items (es : List (Expr String)) {vs : List h.V}
    (hy : Yields (evalItems es left) vs) : vs.length = es.length := by
  induction es generalizing vs with
  | nil =>
    cases hy.of_pure
    rfl
  | cons e es ih =>
    obtain ⟨a, -, hr⟩ := hy.of_bind
    obtain ⟨vs', hvs, hp⟩ := hr.of_bind
    cases hp.of_pure
    rw [List.length_cons, List.length_cons, ih hvs]

theorem hasOptional_map (f : U → U') (e : Expr U) : (e.map f).hasOptional = e.hasOptional := by
  cases e with
  | index base idx => exact hasOptional_map f base
  | member obj name => exact hasOptional_map f obj
  | call callee args => exact hasOptional_map f callee
  | _ => rfl

theorem length_mapAll (f : U → U') (es : List (Expr U)) : (mapAll f es).length = es.length := by
  induction es with
  | nil => rfl
  | cons e es ih => rw [mapAll, List.length_cons, List.length_cons, ih]

theorem text_resolveName (globals : ModuleGlobals) (scopes : List Scope) (x : String) :
    (resolveName globals scopes x).text = x := by
  cases hx : resolveLocal scopes x <;> simp only [resolveName, hx]

theorem reservedTypeName_map (globals : ModuleGlobals) (scopes : List Scope) (e : Expr String) :
    (e.map (resolveName globals scopes)).reservedTypeName (·.text) = e.reservedTypeName id := by
  cases e with
  | nameRef x => simp only [Expr.map, Expr.reservedTypeName, text_resolveName, id]
  | _ => rfl

namespace Target

variable {M : Target h} {scopes : List Scope} {p q : Nat} {ops : List h.V}

def chainLand (sink : Option Nat) (q : Nat) (ops : List h.V) (r : h.V × Bool) : Nat × List h.V :=
  match sink with
  | some t => (if r.2 then t else q, ops ++ [r.1])
  | none => (q, ops ++ [r.1])

theorem chainLand_false (sink : Option Nat) (v : h.V) :
    chainLand sink q ops (v, false) = (q, ops ++ [v]) := by
  cases sink <;> rfl

def Chains (M : Target h) (scopes : List Scope) (m : Eval h (h.V × Bool)) (code : ChainCode) :
    Prop :=
  ∀ sink p q ops, code sink p q → M.Simulates scopes m (chainLand sink q ops) p ops

theorem Chains.whole {m : Eval h (h.V × Bool)} {code : ChainCode} (hm : M.Chains scopes m code)
    (hc : code none p q) (ops : List h.V) :
    M.Simulates scopes m (fun r => (q, ops ++ [r.1])) p ops :=
  hm none p q ops hc

theorem Chains.pushes {m : Eval h (h.V × Bool)} {code : ChainCode} (hm : M.Chains scopes m code)
    (hc : code none p q) : M.Pushes scopes (m >>= fun r => pure r.1) p q :=
  fun ops => (hm.whole hc ops).map fun _ _ => rfl

theorem exists_nested (hn : n + 1 ≤ left) : ∃ below, left = below + 1 ∧ n ≤ below := by
  cases left with
  | zero => cases hn
  | succ left => exact ⟨left, rfl, Nat.le_of_succ_le_succ hn⟩

theorem pushes_alone {e : Expr String} {chain : Nat → Eval h (h.V × Bool)} {code : ChainCode}
    (hm : ∀ left, n ≤ left → M.Chains scopes (chain left) code) (hn : e.alone n ≤ left)
    (hc : code none p q) : M.Pushes scopes (Eval.alone e chain left) p q := by
  unfold Expr.alone at hn
  unfold Eval.alone
  split at hn
  · next he =>
    obtain ⟨below, rfl, hb⟩ := exists_nested hn
    rw [if_pos he]
    exact (hm below hb).pushes hc
  · next he =>
    rw [if_neg he]
    exact (hm left hn).pushes hc

theorem simulates_whole {m : Nat → Eval h h.V} {sink : Option Nat} (hn : n + 1 ≤ left)
    (hm : ∀ left, n ≤ left → M.Pushes scopes (m left) p q) :
    M.Simulates scopes (Eval.whole m left) (chainLand sink q ops) p ops := by
  obtain ⟨below, rfl, hb⟩ := exists_nested hn
  exact (hm below hb ops).map fun v _ => chainLand_false sink v

theorem simulates_link {obj : Eval h (h.V × Bool)} {rest : h.V → Eval h h.V} {objCode : ChainCode}
    {restCode : Nat → Nat → Prop} {needsSink : Bool} {sink : Option Nat}
    (hobj : M.Chains scopes obj objCode)
    (hcut : ∀ v, Yields obj (v, true) → v = h.nil ∧ needsSink = true)
    (hrest : ∀ m v, restCode m q →
      M.Simulates scopes (rest v) (fun r => (q, ops ++ [r])) m (ops ++ [v]))
    (hc : ThenCode objCode restCode needsSink sink p q) :
    M.Simulates scopes (Eval.link obj rest) (chainLand sink q ops) p ops := by
  have hlink : ∀ t, (∃ m, objCode (some t) p m ∧ restCode m q) →
      M.Simulates scopes (Eval.link obj rest) (chainLand (some t) q ops) p ops := by
    intro t ⟨m, ho, hr⟩
    refine (hobj (some t) p m ops ho).bind fun a ha => ?_
    obtain ⟨v, cut⟩ := a
    cases cut with
    | true =>
      obtain ⟨rfl, -⟩ := hcut v ha
      exact .pure rfl
    | false => exact (hrest m v hr).map fun _ _ => rfl
  cases sink with
  | some t => exact hlink t hc
  | none =>
    cases needsSink with
    | true =>
      have hq : (chainLand (some q) q ops : h.V × Bool → _) = chainLand none q ops := by
        funext r
        simp only [chainLand, ite_self]
      exact hq ▸ hlink q hc
    | false =>
      obtain ⟨m, ho, hr⟩ := hc
      refine (hobj none p m ops ho).bind fun a ha => ?_
      obtain ⟨v, cut⟩ := a
      cases cut with
      | true => cases (hcut v ha).2
      | false => exact (hrest m v hr).map fun _ _ => rfl

theorem simulates_optMember {obj : Eval h (h.V × Bool)} {objCode : ChainCode} {needsSink : Bool}
    {sink : Option Nat} {name : String} (hobj : M.Chains scopes obj objCode)
    (hcut : ∀ v, Yields obj (v, true) → v = h.nil ∧ needsSink = true)
    (hc : OptMemberCode M.chunk objCode needsSink name sink p q) :
    M.Simulates scopes (Eval.optLink obj fun o => Eval.world (h.readMember o name))
      (chainLand sink q ops) p ops := by
  have hread : ∀ m v, OpConst M.chunk .getProp (.str name) m q →
      M.Simulates scopes (Eval.world (h.readMember v name)) (fun r => (q, ops ++ [r])) m
        (ops ++ [v]) := by
    intro m v ho
    refine .world fun st w => ?_
    rw [← List.append_assoc]
    exact step_getProp (st ++ ops) w ho v
  have hlink : ∀ t, (∃ m m', objCode (some t) p m ∧ GuardCode M.chunk t m m' ∧
      OpConst M.chunk .getProp (.str name) m' q) →
      M.Simulates scopes (Eval.optLink obj fun o => Eval.world (h.readMember o name))
        (chainLand (some t) q ops) p ops := by
    intro t ⟨m, m', ho, ⟨d, j, hdup, hnil, hjump⟩, hp⟩
    refine (hobj (some t) p m ops ho).bind fun a ha => ?_
    obtain ⟨v, cut⟩ := a
    cases cut with
    | true =>
      obtain ⟨rfl, -⟩ := hcut v ha
      exact .pure rfl
    | false =>
      show M.Simulates scopes _ _ m (ops ++ [v])
      refine .first d (ops ++ [v] ++ [v])
        (fun st w => by simpa only [List.append_assoc] using step_dup (st ++ ops) w hdup v) ?_
      refine .first (if h.isNil v then j else m') (ops ++ [v]) (fun st w => by
        simpa only [List.append_assoc] using step_jumpIfNotNil (st ++ ops ++ [v]) w hnil v) ?_
      cases hv : h.isNil v with
      | true =>
        simp only [hv, Bool.or_true, if_true]
        refine .first t (ops ++ [v]) (fun st w => step_jump _ w hjump) ?_
        exact .pure (by rw [h.isNil_iff.mp hv]; rfl)
      | false =>
        simp only [hv, Bool.or_false, Bool.false_eq_true, if_false]
        exact (hread m' v hp).map fun _ _ => rfl
  cases sink with
  | some t => exact hlink t hc
  | none =>
    cases needsSink with
    | true =>
      have hq : (chainLand (some q) q ops : h.V × Bool → _) = chainLand none q ops := by
        funext r
        simp only [chainLand, ite_self]
      exact hq ▸ hlink q hc
    | false =>
      obtain ⟨m, ho, hp⟩ := hc
      refine (hobj none p m ops ho).bind fun a ha => ?_
      obtain ⟨v, cut⟩ := a
      have hstep : ∀ st w, M.step (cfg m (st ++ ops ++ [v]) w) = _ := fun st w =>
        step_getPropOpt (st ++ ops) w hp v
      cases cut with
      | true => cases (hcut v ha).2
      | false =>
        show M.Simulates scopes _ _ m (ops ++ [v])
        cases hv : h.isNil v with
        | true =>
          simp only [hv, Bool.or_true, if_true] at hstep ⊢
          refine .first q (ops ++ [h.nil]) (fun st w => by
            simpa only [List.append_assoc] using hstep st w) ?_
          exact .pure rfl
        | false =>
          simp only [hv, Bool.or_false, Bool.false_eq_true, if_false] at hstep ⊢
          have hget : M.Simulates scopes (Eval.world (h.readMember v name))
              (fun r => (q, ops ++ [r])) m (ops ++ [v]) := .world fun st w => by
            simpa only [List.append_assoc] using hstep st w
          exact hget.map fun _ _ => rfl

def decides (h : Host) (op : BinOp) (v : h.V) : Bool :=
  match op with
  | .and => !h.isTruthy v
  | .or => h.isTruthy v
  | _ => !h.isNil v

theorem binary_shortCircuit {op : BinOp} (hop : shortCircuitOp op = some jop) (l r : Eval h h.V)
    (ty : Option String) :
    Eval.binary op l r ty = l >>= fun a => if decides h op a then pure a else r := by
  cases op <;> cases hop
  · refine congrArg (l >>= ·) (funext fun a => ?_)
    by_cases ha : h.isTruthy a = true <;> simp [decides, ha]
  · rfl
  · refine congrArg (l >>= ·) (funext fun a => ?_)
    by_cases ha : h.isNil a = true <;> simp [decides, ha]

theorem step_shortCircuit {op : BinOp} (hop : shortCircuitOp op = some jop)
    (ho : OpJump M.chunk jop t p q) (st : List h.V) (w : Vars h) (v : h.V) :
    M.step (cfg p (st ++ [v]) w) = .at (cfg (if decides h op v then t else q) st w) := by
  cases op <;> cases hop
  · refine (step_jumpIfFalse st w ho v).trans ?_
    by_cases hv : h.isTruthy v = true <;> simp [decides, hv]
  · exact step_jumpIfTrue st w ho v
  · refine (step_jumpIfNotNil st w ho v).trans ?_
    by_cases hv : h.isNil v = true <;> simp [decides, hv]

theorem pushes_shortCircuit {op : BinOp} {l r : Eval h h.V} (ty : Option String)
    (hop : shortCircuitOp op = some jop) (hl : M.Pushes scopes l p m₁)
    (hd : OpAt M.chunk .dup m₁ m₂) (hj : OpJump M.chunk jop q m₂ m₃) (hp : OpAt M.chunk .pop m₃ m₄)
    (hr : M.Pushes scopes r m₄ q) : M.Pushes scopes (Eval.binary op l r ty) p q := by
  intro ops
  rw [binary_shortCircuit hop]
  refine (hl ops).bind fun a _ => ?_
  refine .first m₂ (ops ++ [a] ++ [a])
    (fun st w => by simpa only [List.append_assoc] using step_dup (st ++ ops) w hd a) ?_
  refine .first (if decides h op a then q else m₃) (ops ++ [a]) (fun st w => by
    simpa only [List.append_assoc] using step_shortCircuit hop hj (st ++ ops ++ [a]) w a) ?_
  cases decides h op a with
  | true => exact .pure rfl
  | false =>
    show M.Simulates scopes r _ m₃ (ops ++ [a])
    exact .first m₄ ops (fun st w => by
      simpa only [List.append_assoc] using step_pop (st ++ ops) w hp a) (hr ops)

theorem binary_operator {op : BinOp} (hop : shortCircuitOp op = none) (l r : Eval h h.V)
    (ty : Option String) :
    Eval.binary op l r ty = match if op = .instanceOf then ty else none with
      | some ty => l >>= fun a => pure (h.bool (h.instanceofReservedType a ty))
      | none => l >>= fun a => r >>= fun b => Eval.world (h.applyBinop op a b) := by
  cases op <;> first | rfl | cases hop

theorem simulates_apply {op : BinOp} {r : Eval h h.V} (hb : binaryOp op = some o)
    (hr : M.Pushes scopes r p m) (ho : OpAt M.chunk o m q) (a : h.V) (ops : List h.V) :
    M.Simulates scopes (r >>= fun b => Eval.world (h.applyBinop op a b))
      (fun v => (q, ops ++ [v])) p (ops ++ [a]) := by
  refine (hr (ops ++ [a])).bind fun b _ => .world fun st w => ?_
  simpa only [List.append_assoc] using step_binop (st ++ ops) w hb ho a b

theorem pushes_operator {op : BinOp} {l r : Eval h h.V} (ty : Option String)
    (hop : shortCircuitOp op = none) (ht : (if op = .instanceOf then ty else none) = none)
    (hb : binaryOp op = some o) (hl : M.Pushes scopes l p m) (hr : M.Pushes scopes r m m')
    (ho : OpAt M.chunk o m' q) : M.Pushes scopes (Eval.binary op l r ty) p q := by
  intro ops
  rw [binary_operator hop, ht]
  exact (hl ops).bind fun a _ => simulates_apply hb hr ho a ops

theorem pushes_instanceOf {op : BinOp} {l r : Eval h h.V} {ty : Option String} {name : String}
    (hop : shortCircuitOp op = none) (ht : (if op = .instanceOf then ty else none) = some name)
    (hl : M.Pushes scopes l p m) (ho : OpConst M.chunk .instanceOfType (.str name) m q) :
    M.Pushes scopes (Eval.binary op l r ty) p q := by
  intro ops
  rw [binary_operator hop, ht]
  refine (hl ops).bind fun a _ => .first q (ops ++ [h.bool (h.instanceofReservedType a name)])
    (fun st w => ?_) (.pure rfl)
  simpa only [List.append_assoc] using step_instanceOfType (st ++ ops) w ho a

theorem pushes_value {op : AssignOp} {target value : Nat → Eval h h.V}
    {targetCode valueCode : Nat → Nat → Prop} (hn : op.levels nt nv ≤ left)
    (ht : ∀ left, nt ≤ left → ∀ p q, targetCode p q → M.Pushes scopes (target left) p q)
    (hv : ∀ left, nv ≤ left → ∀ p q, valueCode p q → M.Pushes scopes (value left) p q)
    (hc : ValueCode M.chunk op targetCode valueCode p q) :
    M.Pushes scopes (Eval.value op target value left) p q := by
  unfold ValueCode at hc
  unfold AssignOp.levels at hn
  unfold Eval.value
  cases hb : op.binop with
  | none =>
    simp only [hb] at hc hn
    exact hv left hn p q hc
  | some b =>
    simp only [hb] at hc hn
    obtain ⟨below, rfl, hbelow⟩ := exists_nested hn
    obtain ⟨hnt, hnv⟩ := Nat.max_le.mp hbelow
    obtain ⟨m, m', o, htc, hvc, ho, hop⟩ := hc
    intro ops
    exact (ht below hnt p m htc ops).bind fun l _ =>
      simulates_apply ho (hv below hnv m m' hvc) hop l ops

variable {globals : ModuleGlobals}

theorem chains_member (obj : Expr String)
    (ho : M.Chains scopes (evalChain obj left)
      (Code M.chunk (obj.map (resolveName globals scopes)))) (name : String) :
    M.Chains scopes (Eval.link (evalChain obj left) fun o => Eval.world (h.readMember o name))
      (MemberCode M.chunk (Code M.chunk (obj.map (resolveName globals scopes)))
        (Expr.member (obj.map (resolveName globals scopes)) name).chainNeedsSink name) := by
  intro sink p q ops hc
  refine simulates_link ho (fun v hv => ?_) (fun m o hr => .world fun st w => ?_) hc
  · exact (cut_chain obj hv).imp_right (hasOptional_map _ obj).trans
  · simpa only [List.append_assoc] using step_getProp (st ++ ops) w hr o

theorem chains_index (base : Expr String) {idx : Expr String} {index : Eval h h.V}
    (hb : M.Chains scopes (evalChain base left)
      (Code M.chunk (base.map (resolveName globals scopes))))
    (hi : ∀ p q, Code M.chunk (idx.map (resolveName globals scopes)) none p q →
      M.Pushes scopes index p q) :
    M.Chains scopes
      (Eval.link (evalChain base left) fun o => index >>= fun i => Eval.world (h.indexGet o i))
      (IndexCode M.chunk (Code M.chunk (base.map (resolveName globals scopes)))
        (Code M.chunk (idx.map (resolveName globals scopes)))
        (Expr.index (base.map (resolveName globals scopes))
          (idx.map (resolveName globals scopes))).chainNeedsSink) := by
  intro sink p q ops hc
  refine simulates_link hb (fun v hv => ?_) (fun m o hr => ?_) hc
  · exact (cut_chain base hv).imp_right (hasOptional_map _ base).trans
  · obtain ⟨m', hic, ho⟩ := hr
    refine (hi m m' hic (ops ++ [o])).bind fun i _ => .world fun st w => ?_
    simpa only [List.append_assoc] using step_getIndex (st ++ ops) w ho o i

mutual

theorem chains_expr (hf : M.Fits scopes) (e : Expr String)
    (ha : ∀ x ∈ (e.map (resolveName globals scopes)).assigned, Assignable x) (left : Nat)
    (hn : e.chainLevels ≤ left) :
    M.Chains scopes (evalChain e left) (Code M.chunk (e.map (resolveName globals scopes))) := by
  intro sink p q ops hc
  cases e with
  | literal l =>
    refine simulates_whole hn fun left _ ops => ?_
    exact .first q (ops ++ [h.const l.const]) (fun st w => by
      simpa only [List.append_assoc] using step_const (st ++ ops) w hc) (.pure rfl)
  | nameRef x => exact simulates_whole hn fun left _ => pushes_ident hf hc
  | paren e => exact simulates_whole hn fun left hn => pushes_alone (chains_expr hf e ha) hn hc
  | unary op e =>
    obtain ⟨m, hc, ho⟩ := hc
    refine simulates_whole hn fun left hn ops => ?_
    refine (pushes_alone (chains_expr hf e ha) hn hc ops).bind fun a _ => .world fun st w => ?_
    simpa only [List.append_assoc] using step_unop (st ++ ops) w ho a
  | binary op l r =>
    obtain ⟨hal, har⟩ := List.forall_mem_append.mp ha
    have hty := reservedTypeName_map globals scopes r
    refine simulates_whole hn fun left hn => ?_
    obtain ⟨hnl, hnr⟩ := Nat.max_le.mp hn
    have hl := fun p q (hlc : Code M.chunk _ none p q) =>
      pushes_alone (chains_expr hf l hal) hnl hlc
    have hr := fun p q (hrc : Code M.chunk _ none p q) =>
      pushes_alone (chains_expr hf r har) hnr hrc
    simp only [Expr.map, Code, hty] at hc
    cases hs : shortCircuitOp op with
    | some jop =>
      simp only [hs] at hc
      obtain ⟨m₁, m₂, m₃, m₄, hlc, hd, hj, hp, hrc⟩ := hc
      exact pushes_shortCircuit _ hs (hl p m₁ hlc) hd hj hp (hr m₄ q hrc)
    | none =>
      simp only [hs] at hc
      cases ht : (if op = .instanceOf then r.reservedTypeName id else none) with
      | some ty =>
        simp only [ht] at hc
        obtain ⟨m, hlc, ho⟩ := hc
        exact pushes_instanceOf hs ht (hl p m hlc) ho
      | none =>
        simp only [ht] at hc
        obtain ⟨m, m', o, hlc, hrc, hb, ho⟩ := hc
        exact pushes_operator _ hs ht hb (hl p m hlc) (hr m m' hrc) ho
  | ternary c t e =>
    obtain ⟨hact, hae⟩ := List.forall_mem_append.mp ha
    obtain ⟨hac, hat⟩ := List.forall_mem_append.mp hact
    obtain ⟨m₁, m₂, m₃, m₄, hcc, hjf, htc, hj, hec⟩ := hc
    refine simulates_whole hn fun left hn ops => ?_
    obtain ⟨hnc, hnte⟩ := Nat.max_le.mp hn
    obtain ⟨hnt, hne⟩ := Nat.max_le.mp hnte
    refine (pushes_alone (chains_expr hf c hac) hnc hcc ops).bind fun a _ => ?_
    refine .first (if h.isTruthy a then m₂ else m₄) ops (fun st w => by
      simpa only [List.append_assoc] using step_jumpIfFalse (st ++ ops) w hjf a) ?_
    by_cases hv : h.isTruthy a = true
    · simp only [if_pos hv]
      rw [← bind_pure (Eval.alone t (evalChain t) left)]
      refine (pushes_alone (chains_expr hf t hat) hnt htc ops).bind fun b _ => ?_
      exact .first q (ops ++ [b]) (fun st w => step_jump _ w hj) (.pure rfl)
    · simp only [if_neg hv]
      exact pushes_alone (chains_expr hf e hae) hne hec ops
  | assignName op x v =>
    obtain ⟨hax, hav⟩ := List.forall_mem_cons.mp ha
    obtain ⟨m, hvc, hst⟩ := hc
    refine simulates_whole hn fun left hn ops => ?_
    refine (pushes_value hn (fun left hn p q hx => ?_)
      (fun left hn p q => pushes_alone (chains_expr hf v hav) hn) hvc ops).bind
      fun a _ => simulates_assign hf hax hst a ops
    obtain ⟨below, rfl, -⟩ := exists_nested hn
    exact pushes_ident hf hx
  | assignMember op obj field v =>
    obtain ⟨hao, hav⟩ := List.forall_mem_append.mp ha
    obtain ⟨m₁, m₂, m₃, hvc, hoc, hsw, hset⟩ := hc
    refine simulates_whole hn fun left hn ops => ?_
    obtain ⟨hnv, hno⟩ := Nat.max_le.mp hn
    refine .bind (pushes_value hnv
      (fun left hn p q => pushes_alone (fun left hn =>
        chains_member obj (chains_expr hf obj hao left hn) field) hn)
      (fun left hn p q => pushes_alone (chains_expr hf v hav) hn) hvc ops) fun a _ => ?_
    refine (pushes_alone (chains_expr hf obj hao) hno hoc (ops ++ [a])).bind fun b _ => ?_
    refine .first m₃ (ops ++ [b] ++ [a]) (fun st w => by
      simpa only [List.append_assoc] using step_swap (st ++ ops) w hsw a b) (.world fun st w => ?_)
    simpa only [List.append_assoc] using step_setProp (st ++ ops) w hset b a
  | assignIndex op obj idx v =>
    obtain ⟨haoi, hav⟩ := List.forall_mem_append.mp ha
    obtain ⟨hao, hai⟩ := List.forall_mem_append.mp haoi
    obtain ⟨m₁, m₂, m₃, m₄, hvc, hoc, hic, hrot, hset⟩ := hc
    refine simulates_whole hn fun left hn ops => ?_
    obtain ⟨hnv, hnoi⟩ := Nat.max_le.mp hn
    obtain ⟨hno, hni⟩ := Nat.max_le.mp hnoi
    refine .bind (pushes_value hnv
      (fun left hn p q => pushes_alone (fun left hn => chains_index obj
        (chains_expr hf obj hao left (Nat.max_le.mp hn).1)
        fun p q => pushes_alone (chains_expr hf idx hai) (Nat.max_le.mp hn).2) hn)
      (fun left hn p q => pushes_alone (chains_expr hf v hav) hn) hvc ops) fun a _ => ?_
    refine (pushes_alone (chains_expr hf obj hao) hno hoc (ops ++ [a])).bind fun b _ => ?_
    refine (pushes_alone (chains_expr hf idx hai) hni hic (ops ++ [a] ++ [b])).bind fun d _ => ?_
    refine .first m₄ (ops ++ [b] ++ [d] ++ [a]) (fun st w => by
      simpa only [List.append_assoc] using step_rot3 (st ++ ops) w hrot a b d)
      (.world fun st w => ?_)
    simpa only [List.append_assoc] using step_setIndex (st ++ ops) w hset b d a
  | array es =>
    obtain ⟨m, hic, ho⟩ := hc
    refine simulates_whole hn fun left hn ops => ?_
    refine (simulates_items hf es ha hn hic ops).bind fun vs hvs => .world fun st w => ?_
    rw [length_mapAll, ← length_items es hvs] at ho
    simpa only [List.append_assoc] using step_newArray (st ++ ops) w ho
  | index base idx =>
    obtain ⟨hab, hai⟩ := List.forall_mem_append.mp ha
    obtain ⟨hnb, hni⟩ := Nat.max_le.mp hn
    exact chains_index base (chains_expr hf base hab left hnb)
      (fun p q => pushes_alone (chains_expr hf idx hai) hni) sink p q ops hc
  | member obj name =>
    exact chains_member obj (chains_expr hf obj ha left hn) name sink p q ops hc
  | optMember obj name =>
    refine simulates_optMember (chains_expr hf obj ha left hn) (fun v hv => ?_) hc
    exact (cut_chain obj hv).imp_right (hasOptional_map _ obj).trans
  | call callee args =>
    obtain ⟨hac, haa⟩ := List.forall_mem_append.mp ha
    obtain ⟨hnc, hna⟩ := Nat.max_le.mp hn
    rw [evalChain]
    refine simulates_link (chains_expr hf callee hac left hnc) (fun v hv => ?_)
      (fun m f hr => ?_) hc
    · exact (cut_chain callee hv).imp_right (hasOptional_map _ callee).trans
    · obtain ⟨m', hargs, ho⟩ := hr
      refine (simulates_items hf args haa hna hargs (ops ++ [f])).bind fun vs hvs => ?_
      rw [length_mapAll, ← length_items args hvs] at ho
      exact .world fun st w => by
        simpa only [List.append_assoc] using step_call (st ++ ops) w ho f

theorem simulates_items (hf : M.Fits scopes) (es : List (Expr String)) {p q : Nat}
    (ha : ∀ x ∈ assignedAll (mapAll (resolveName globals scopes) es), Assignable x)
    (hn : levelsAll es ≤ left)
    (hc : ItemsCode M.chunk (mapAll (resolveName globals scopes) es) p q) (ops : List h.V) :
    M.Simulates scopes (evalItems es left) (fun vs => (q, ops ++ vs)) p ops := by
  cases es with
  | nil =>
    cases hc
    exact .pure (by rw [List.append_nil])
  | cons e es =>
    obtain ⟨hae, haes⟩ := List.forall_mem_append.mp ha
    obtain ⟨hne, hnes⟩ := Nat.max_le.mp hn
    obtain ⟨m, hec, hesc⟩ := hc
    refine (pushes_alone (chains_expr hf e hae) hne hec ops).bind fun a _ => ?_
    refine (simulates_items hf es haes hnes hesc (ops ++ [a])).map fun vs _ => ?_
    rw [List.append_assoc]
    rfl

end

end Target
end AScript.Compile
