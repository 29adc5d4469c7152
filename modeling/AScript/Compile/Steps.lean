import AScript.Compile.Code

namespace AScript.Compile.Engine

open AScript.Lib AScript.Syntax AScript.Bytecode

variable {h : Host} {c : Chunk} {others : Op → Nat → Cfg h → Arm h} {p q : Nat}

def settled (ip : Nat) (stack : List h.V) (w : Vars h) :
    Except h.E h.V × h.W → Outcome (Cfg h) (End h)
  | (.ok v, host) => .at (cfg ip (stack ++ [v]) { w with host })
  | (.error e, host) => .done (.raise e { w with host })

@[simp] theorem pop_append (st : List h.V) (v : h.V) : Fiber.pop (st ++ [v]) = some (v, st) := by
  simp [Fiber.pop]

theorem pop_push (st : List h.V) (v : h.V) (f : h.V → List h.V → Arm h) :
    pop (st ++ [v]) f = f v st := by
  rw [pop, pop_append]

theorem popN_append (st vs : List h.V) (f : List h.V → List h.V → Arm h) :
    popN vs.length (st ++ vs) f = f vs st := by
  simp [popN]

theorem step_at {st : List h.V} {w : Vars h} (hop : OpAt c op p q) :
    step c others (cfg p st w) = (vm c others).single (cfg p st w) p op := by
  rw [step]
  simp only [show (cfg p st w).top.ip = p from rfl, hop.1]

def throughArm : Op → Bool
  | .getLocal | .const | .getProp | .add => false
  | _ => true

variable {st st' : List h.V} {w w' : Vars h} {op : Op}

theorem step_arm (hop : OpAt c op p q) (ht : throughArm op = true) :
    step c others (cfg p st w) =
      (vm c others).settleArm (cfg p st w) p op (arm c others op p (cfg p st w)) := by
  rw [step_at hop]
  cases op <;> first | rfl | cases ht

theorem next_of_arm (hop : OpAt c op p q) (ht : throughArm op = true)
    (ha : arm c others op p (cfg p st w) = next st' w') :
    step c others (cfg p st w) = .at (cfg q st' w') := by
  rw [step_arm hop ht, ha, hop.2]
  rfl

theorem push_of_arm {r : Except h.E h.V × h.W} (hop : OpAt c op p q) (ht : throughArm op = true)
    (ha : arm c others op p (cfg p st w) = push st' w' r) :
    step c others (cfg p st w) = settled q st' w' r := by
  rw [step_arm hop ht, ha, hop.2]
  obtain ⟨r, host⟩ := r
  cases r <;> rfl

def storedAt (ip : Nat) (stack : List h.V) (w : Vars h) :
    Except h.E (Vars h) → Outcome (Cfg h) (End h)
  | .ok w => .at (cfg ip stack w)
  | .error e => .done (.raise e w)

theorem stored_of_arm {r : Except h.E (Vars h)} (hop : OpAt c op p q) (ht : throughArm op = true)
    (ha : arm c others op p (cfg p st w) = stored st' w' r) :
    step c others (cfg p st w) = storedAt q st' w' r := by
  rw [step_arm hop ht, ha, hop.2]
  cases r <;> rfl

theorem jump_of_arm {taken : Bool} (ho : OpJump c op t p q) (ht : throughArm op = true)
    (hj : op = .jumpIfFalse ∨ op = .jumpIfTrue ∨ op = .jumpIfNotNil)
    (ha : arm c others op p (cfg p st w) = jump taken st' w) :
    step c others (cfg p st w) = .at (cfg (if taken then t else q) st' w) := by
  rw [step_arm ho.1 ht, ha, ho.1.2, ← ho.2.jumpTarget]
  rcases hj with rfl | rfl | rfl <;> cases taken <;> rfl

section

variable (st : List h.V) (w : Vars h)

theorem step_const {l : Literal} (ho : OpConst c .const l p q) :
    step c others (cfg p st w) = .at (cfg q (st ++ [h.const l.const]) w) := by
  rw [step_at ho.1]
  simp only [Vm.single, Vm.chunk, show (vm c others).program (cfg p st w).top.fn = c from rfl, ho.2]
  rw [ho.1.2]
  rfl

theorem step_getLocal (ho : OpU16 c .getLocal slot p q) (hv : st[slot]? = some v) :
    step c others (cfg p st w) = .at (cfg q (st ++ [v]) w) := by
  have hget : (cfg p st w).get slot = some v := by
    rw [Fiber.get, ← hv]
    exact congrArg _ (Nat.zero_add slot)
  rw [step_at ho.1]
  simp only [Vm.single, Vm.chunk, show (vm c others).program (cfg p st w).top.fn = c from rfl,
    ho.2, hget]
  rw [ho.1.2]
  rfl

theorem step_getProp {name : String} (ho : OpConst c .getProp (.str name) p q) (o : h.V) :
    step c others (cfg p (st ++ [o]) w) = settled q st w (h.readMember o name w.host) := by
  rw [step_at ho.1]
  simp only [Vm.single, Vm.chunk,
    show (vm c others).program (cfg p (st ++ [o]) w).top.fn = c from rfl, ho.2, Literal.const,
    show (cfg p (st ++ [o]) w).stack = st ++ [o] from rfl, pop_append]
  rw [ho.1.2]
  rcases hr : h.readMember o name w.host with ⟨r, host⟩
  have hlift : (vm c others).readMember (cfg p (st ++ [o]) w).top.fn p name o w =
      (r, { w with host }) := by
    show lift (h.readMember o name) w = _
    rw [lift, hr]
  rw [show (cfg p (st ++ [o]) w).world = w from rfl, hlift]
  cases r <;> rfl

theorem step_nil (ho : OpAt c .nil p q) :
    step c others (cfg p st w) = .at (cfg q (st ++ [h.nil]) w) :=
  next_of_arm ho rfl rfl

theorem step_pop (ho : OpAt c .pop p q) (v : h.V) :
    step c others (cfg p (st ++ [v]) w) = .at (cfg q st w) :=
  next_of_arm ho rfl (pop_push st v _)

theorem step_dup (ho : OpAt c .dup p q) (v : h.V) :
    step c others (cfg p (st ++ [v]) w) = .at (cfg q (st ++ [v] ++ [v]) w) :=
  next_of_arm ho rfl (pop_push st v _)

theorem step_swap (ho : OpAt c .swap p q) (a b : h.V) :
    step c others (cfg p (st ++ [a] ++ [b]) w) = .at (cfg q (st ++ [b] ++ [a]) w) :=
  next_of_arm ho rfl ((pop_push (st ++ [a]) b _).trans (pop_push st a _))

theorem step_rot3 (ho : OpAt c .rot3 p q) (a b x : h.V) :
    step c others (cfg p (st ++ [a] ++ [b] ++ [x]) w) =
      .at (cfg q (st ++ [b] ++ [x] ++ [a]) w) :=
  next_of_arm ho rfl ((pop_push (st ++ [a] ++ [b]) x _).trans
    ((pop_push (st ++ [a]) b _).trans (pop_push st a _)))

theorem step_setLocal (ho : OpU16 c .setLocal slot p q) (hk : slot < st.length) (v : h.V) :
    step c others (cfg p (st ++ [v]) w) = .at (cfg q (st.set slot v) w) := by
  refine next_of_arm ho.1 rfl ((pop_push st v _).trans ?_)
  dsimp only
  rw [ho.2, show (cfg p (st ++ [v]) w).top.slotBase + slot = slot from Nat.zero_add slot, if_pos hk]
  rfl

theorem named_str {name : String} (ho : OpConst c op (.str name) p q) (operand : String)
    (f : String → Arm h) : named c operand (c.readU16 (p + 1)) w f = f name := by
  simp only [named, ho.2, Literal.const]

theorem step_getGlobal {x : String} (ho : OpConst c .getGlobal (.str x) p q) :
    step c others (cfg p st w) = settled q st w (getGlobal w x, w.host) :=
  push_of_arm ho.1 rfl (named_str w ho _ _)

theorem step_defineGlobal {x : String} (ho : OpConst c .defineGlobal (.str x) p q) (v : h.V) :
    step c others (cfg p (st ++ [v]) w) =
      storedAt q st w (defineGlobal w x v (c.readU8 (p + 3) ≠ 0)) :=
  stored_of_arm ho.1 rfl ((named_str w ho _ _).trans (pop_push st v _))

theorem step_setGlobal {x : String} (ho : OpConst c .setGlobal (.str x) p q) (v : h.V) :
    step c others (cfg p (st ++ [v]) w) = storedAt q (st ++ [v]) w (setGlobal w x v) :=
  stored_of_arm ho.1 rfl ((named_str w ho _ _).trans (pop_push st v _))

theorem step_immutableError {x : String} (ho : OpConst c .immutableError (.str x) p q) :
    step c others (cfg p st w) = .done (.raise (h.panic (cannotAssignImmutable x)) w) := by
  have ha : arm c others .immutableError p (cfg p st w) =
      .raise (h.panic (cannotAssignImmutable x)) w := named_str w ho _ _
  rw [step_arm ho.1 rfl, ha]
  rfl

theorem step_instanceOfType {ty : String} (ho : OpConst c .instanceOfType (.str ty) p q) (v : h.V) :
    step c others (cfg p (st ++ [v]) w) =
      .at (cfg q (st ++ [h.bool (h.instanceofReservedType v ty)]) w) :=
  next_of_arm ho.1 rfl ((named_str w ho _ _).trans (pop_push st v _))

theorem step_jump (ho : OpJump c .jump t p q) : step c others (cfg p st w) = .at (cfg t st w) := by
  rw [step_at ho.1, ← ho.2.jumpTarget]
  rfl

theorem step_loop (ho : OpJump c .loop t p q) : step c others (cfg p st w) = .at (cfg t st w) := by
  rw [step_at ho.1, ← ho.2.jumpTarget]
  rfl

theorem step_jumpIfFalse (ho : OpJump c .jumpIfFalse t p q) (v : h.V) :
    step c others (cfg p (st ++ [v]) w) = .at (cfg (if h.isTruthy v then q else t) st w) := by
  rw [jump_of_arm ho rfl (.inl rfl) (pop_push st v _)]
  cases h.isTruthy v <;> rfl

theorem step_jumpIfTrue (ho : OpJump c .jumpIfTrue t p q) (v : h.V) :
    step c others (cfg p (st ++ [v]) w) = .at (cfg (if h.isTruthy v then t else q) st w) :=
  jump_of_arm ho rfl (.inr (.inl rfl)) (pop_push st v _)

theorem step_jumpIfNotNil (ho : OpJump c .jumpIfNotNil t p q) (v : h.V) :
    step c others (cfg p (st ++ [v]) w) = .at (cfg (if h.isNil v then q else t) st w) := by
  rw [jump_of_arm ho rfl (.inr (.inr rfl)) (pop_push st v _)]
  cases h.isNil v <;> rfl

theorem step_call (ho : OpU8 c .call vs.length p q) (f : h.V) :
    step c others (cfg p (st ++ [f] ++ vs) w) = settled q st w (h.callValue f vs w.host) := by
  have ha : arm c others .call p (cfg p (st ++ [f] ++ vs) w) =
      popN vs.length (st ++ [f] ++ vs) fun args st =>
        pop st fun f st => push st w (h.callValue f args w.host) := by
    rw [← ho.2]
    rfl
  exact push_of_arm ho.1 rfl (ha.trans ((popN_append _ vs _).trans (pop_push st f _)))

theorem step_newArray (ho : OpU16 c .newArray vs.length p q) :
    step c others (cfg p (st ++ vs) w) =
      settled q st w ((h.newArray vs w.host).map .ok id) := by
  have ha : arm c others .newArray p (cfg p (st ++ vs) w) =
      popN vs.length (st ++ vs) fun vs st => push st w ((h.newArray vs w.host).map .ok id) := by
    rw [← ho.2]
    rfl
  exact push_of_arm ho.1 rfl (ha.trans (popN_append st vs _))

theorem step_getIndex (ho : OpAt c .getIndex p q) (o i : h.V) :
    step c others (cfg p (st ++ [o] ++ [i]) w) = settled q st w (h.indexGet o i w.host) :=
  push_of_arm ho rfl ((pop_push (st ++ [o]) i _).trans (pop_push st o _))

theorem step_setIndex (ho : OpAt c .setIndex p q) (o i v : h.V) :
    step c others (cfg p (st ++ [o] ++ [i] ++ [v]) w) =
      settled q st w (h.indexSet o i v w.host) :=
  push_of_arm ho rfl ((pop_push (st ++ [o] ++ [i]) v _).trans
    ((pop_push (st ++ [o]) i _).trans (pop_push st o _)))

theorem step_setProp {name : String} (ho : OpConst c .setProp (.str name) p q) (o v : h.V) :
    step c others (cfg p (st ++ [o] ++ [v]) w) =
      settled q st w (h.setMember o name v w.host) :=
  push_of_arm ho.1 rfl ((named_str w ho _ _).trans
    ((pop_push (st ++ [o]) v _).trans (pop_push st o _)))

theorem step_getPropOpt {name : String} (ho : OpConst c .getPropOpt (.str name) p q) (o : h.V) :
    step c others (cfg p (st ++ [o]) w) =
      if h.isNil o then .at (cfg q (st ++ [h.nil]) w)
      else settled q st w (h.readMember o name w.host) := by
  have ha : arm c others .getPropOpt p (cfg p (st ++ [o]) w) =
      if h.isNil o then next (st ++ [h.nil]) w else push st w (h.readMember o name w.host) :=
    (named_str w ho _ _).trans (pop_push st o _)
  cases hn : h.isNil o with
  | true => exact next_of_arm ho.1 rfl (ha.trans (by rw [hn]; rfl))
  | false => exact push_of_arm ho.1 rfl (ha.trans (by rw [hn]; rfl))

theorem step_unop {op : UnOp} (ho : OpAt c (unaryOp op) p q) (v : h.V) :
    step c others (cfg p (st ++ [v]) w) = settled q st w (h.applyUnop op v, w.host) := by
  cases op <;> exact push_of_arm ho rfl (pop_push st v _)

theorem step_add (ho : OpAt c .add p q) (l r : h.V) :
    step c others (cfg p (st ++ [l] ++ [r]) w) =
      settled q st w (h.applyBinop .add l r w.host) := by
  rw [step_at ho, ho.2]
  simp only [Vm.single, show (cfg p (st ++ [l] ++ [r]) w).stack = st ++ [l] ++ [r] from rfl,
    pop_append]
  rcases hr : h.applyBinop .add l r w.host with ⟨r', host⟩
  have hlift : (vm c others).add (cfg p (st ++ [l] ++ [r]) w).top.fn p l r w =
      (r', { w with host }) := by
    show lift (h.applyBinop .add l r) w = _
    rw [lift, hr]
  rw [show (cfg p (st ++ [l] ++ [r]) w).world = w from rfl, hlift]
  cases r' <;> rfl

theorem step_binop {b : BinOp} (hb : binaryOp b = some op) (ho : OpAt c op p q) (l r : h.V) :
    step c others (cfg p (st ++ [l] ++ [r]) w) = settled q st w (h.applyBinop b l r w.host) := by
  cases b with
  | add =>
    cases hb
    exact step_add st w ho l r
  | and | or | coalesce | range => cases hb
  | _ =>
    cases hb
    exact push_of_arm ho rfl ((pop_push (st ++ [l]) r _).trans (pop_push st l _))

theorem step_return (ho : OpAt c .«return» p q) (v : h.V) :
    ∃ fb, step c others (cfg p (st ++ [v]) w) = .done (.exit (some v) fb) ∧ fb.world = w := by
  have ha : arm c others .«return» p (cfg p (st ++ [v]) w) = .return st w (some v) :=
    pop_push st v _
  refine ⟨(cfg p (st ++ [v]) w).goto (p + 1 + 0) st w, ?_, rfl⟩
  rw [step_arm ho rfl, ha]
  rfl

end

end AScript.Compile.Engine
