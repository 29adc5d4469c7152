import AScript.Compile.Expressions

namespace AScript.Compile

open AScript.Lib AScript.Syntax AScript.Bytecode Engine

variable {h : Host}

theorem exec_bind (m : Exec h α) (f : α → Exec h β) (s : State h) :
    (m >>= f) s = match m s with
      | none => none
      | some (.ok a, s') => f a s'
      | some (.error e, s') => some (.error e, s') := by
  show (m s).bind (fun r => ExceptT.bindCont f r.1 r.2) = _
  rcases m s with _ | ⟨r, s'⟩
  · rfl
  · cases r <;> rfl

def SameOuter (scopes scopes' : List Scope) : Prop :=
  scopes'.length = scopes.length ∧ scopes'.tail = scopes.tail

theorem SameOuter.refl (scopes : List Scope) : SameOuter scopes scopes := ⟨rfl, rfl⟩

theorem SameOuter.trans (h : SameOuter scopes scopes') (h' : SameOuter scopes' scopes'') :
    SameOuter scopes scopes'' :=
  ⟨h'.1.trans h.1, h'.2.trans h.2⟩

theorem SameOuter.cons (h : SameOuter (sc :: scopes) top) : ∃ sc', top = sc' :: scopes := by
  obtain ⟨hl, ht⟩ := h
  cases top with
  | nil => cases hl
  | cons sc' scs => exact ⟨sc', congrArg (sc' :: ·) ht⟩

abbrev Landing (V : Type) := Flow V → Nat → List Scope → Prop

def stmtLands (V : Type) (scopes scopes' : List Scope) (ends : LoopEnds) (q : Nat) : Landing V
  | .normal, ip, top => ip = q ∧ top = scopes'
  | .break, ip, top => (∃ k, ends = some (ip, k)) ∧ SameOuter scopes top
  | .continue, ip, top => (∃ b, ends = some (b, ip)) ∧ SameOuter scopes top
  | .return _, _, _ => False

def childLands (V : Type) (scopes : List Scope) (ends : LoopEnds) (q : Nat) : Landing V
  | .normal, ip, top => ip = q ∧ top = scopes
  | .break, ip, top => (∃ k, ends = some (ip, k)) ∧ top = scopes
  | .continue, ip, top => (∃ b, ends = some (b, ip)) ∧ top = scopes
  | .return _, _, _ => False

namespace Target

variable (M : Target h)

def Exits (fb : Cfg h) (world : h.W) : Prop :=
  ∃ v fb', fb'.world.host = world ∧ Ends M.step fb (.exit (some v) fb')

def Lands (fb : Cfg h) (lands : Landing h.V) (flow : Flow h.V) (s : State h) : Prop :=
  (∃ v, flow = .return v ∧ M.Exits fb s.world) ∨
    ∃ ip top locals w, lands flow ip top ∧ Matches M.slots M.defined top s locals w ∧
      Reaches M.step 0 fb (cfg ip locals w)

def Follows (fuel : Nat) (lands : Landing h.V) (fb : Cfg h) :
    Option (Except h.E (Flow h.V) × State h) → Prop
  | none => RunsFor M.step fuel fb
  | some (.ok flow, s) => M.Lands fb lands flow s
  | some (.error e, s) => M.Raises fb e s.world

def Executes (fuel : Nat) (scopes : List Scope) (m : Exec h (Flow h.V)) (p : Nat)
    (ops : List h.V) (lands : Landing h.V) : Prop :=
  ∀ s locals w, Matches M.slots M.defined scopes s locals w →
    M.Follows fuel lands (cfg p (locals ++ ops) w) (m s)

variable {M} {fuel : Nat} {scopes scopes' : List Scope} {ends : LoopEnds} {p q : Nat}
  {ops ops' : List h.V} {lands lands' : Landing h.V}

theorem Lands.after {fb fb' : Cfg h} (hr : Reaches M.step k fb fb')
    (hl : M.Lands fb' lands flow s) : M.Lands fb lands flow s := by
  rcases hl with ⟨v, hf, u, fb'', hw, he⟩ | ⟨ip, top, locals, w, hl, hm, hr'⟩
  · exact .inl ⟨v, hf, u, fb'', hw, hr.ends he⟩
  · exact .inr ⟨ip, top, locals, w, hl, hm, (hr.trans hr').weaken (Nat.zero_le _)⟩

theorem Follows.after {fb fb' : Cfg h} {r : Option (Except h.E (Flow h.V) × State h)}
    (hr : Reaches M.step k fb fb') (hf : M.Follows n lands fb' r) (hn : fuel ≤ k + n) :
    M.Follows fuel lands fb r := by
  rcases r with _ | ⟨r, s⟩
  · exact (hr.runsFor hf).weaken hn
  · cases r with
    | error e => exact Raises.after hr hf
    | ok flow => exact Lands.after hr hf

theorem Follows.mono {fb : Cfg h} {r : Option (Except h.E (Flow h.V) × State h)}
    (hf : M.Follows fuel lands fb r)
    (hl : ∀ flow ip top, lands flow ip top → lands' flow ip top) : M.Follows fuel lands' fb r := by
  rcases r with _ | ⟨r, s⟩
  · exact hf
  · cases r with
    | error e => exact hf
    | ok flow =>
      rcases hf with hret | ⟨ip, top, locals, w, hland, hm, hr⟩
      · exact .inl hret
      · exact .inr ⟨ip, top, locals, w, hl _ _ _ hland, hm, hr⟩

namespace Executes

theorem mono {m : Exec h (Flow h.V)} (hm : M.Executes fuel scopes m p ops lands)
    (hl : ∀ flow ip top, lands flow ip top → lands' flow ip top) :
    M.Executes fuel scopes m p ops lands' :=
  fun s locals w hw => (hm s locals w hw).mono hl

theorem done {flow : Flow h.V} (hl : lands flow p scopes) :
    M.Executes fuel scopes (pure flow) p [] lands := by
  intro s locals w hw
  refine .inr ⟨p, scopes, locals, w, hl, hw, ?_⟩
  rw [List.append_nil]
  exact .refl _

theorem eval {m : Eval h α} {f : α → Exec h (Flow h.V)} {land : α → Nat × List h.V}
    (hm : M.Simulates scopes m land p ops)
    (hf : ∀ a, M.Executes fuel scopes (f a) (land a).1 (land a).2 lands) :
    M.Executes fuel scopes (Exec.eval m >>= f) p ops lands := by
  intro s locals w hw
  have hrun := hm s locals w hw
  rw [exec_bind]
  simp only [Exec.eval]
  rcases hms : m s with ⟨r, t⟩
  rw [hms] at hrun
  cases r with
  | error e => exact hrun
  | ok a =>
    obtain ⟨locals', w', hw', hr⟩ := hrun
    exact (hf a t locals' w' hw').after hr (Nat.le_add_left _ _)

theorem first {m : Exec h (Flow h.V)} (p' : Nat) (ops' : List h.V)
    (hs : ∀ st w, M.step (cfg p (st ++ ops) w) = .at (cfg p' (st ++ ops') w))
    (hm : M.Executes fuel scopes m p' ops' lands) : M.Executes fuel scopes m p ops lands :=
  fun s locals w hw =>
    (hm s locals w hw).after (Reaches.of_step (hs locals w)) (Nat.le_add_left _ _)

theorem seq {m m' : Exec h (Flow h.V)} {scopes₁ : List Scope} {p' : Nat}
    (hm : M.Executes fuel scopes m p ops (stmtLands h.V scopes scopes₁ ends p'))
    (hm' : M.Executes fuel scopes₁ m' p' [] (stmtLands h.V scopes₁ scopes' ends q))
    (ho : SameOuter scopes scopes₁) :
    M.Executes fuel scopes
      (m >>= fun flow => match flow with
        | .normal => m'
        | flow => pure flow) p ops (stmtLands h.V scopes scopes' ends q) := by
  have hm' : M.Executes fuel scopes₁ m' p' [] (stmtLands h.V scopes scopes' ends q) :=
    hm'.mono fun flow ip top hl => by
      cases flow with
      | normal => exact hl
      | «break» => exact ⟨hl.1, ho.trans hl.2⟩
      | «continue» => exact ⟨hl.1, ho.trans hl.2⟩
      | «return» v => exact hl
  intro s locals w hw
  have hrun := hm s locals w hw
  rw [exec_bind]
  rcases hms : m s with _ | ⟨r, t⟩
  · rwa [hms] at hrun
  rw [hms] at hrun
  cases r with
  | error e => exact hrun
  | ok flow =>
    rcases hrun with ⟨v, rfl, hret⟩ | ⟨ip, top, locals', w', hland, hw', hr⟩
    · exact .inl ⟨v, rfl, hret⟩
    cases flow with
    | normal =>
      obtain ⟨rfl, rfl⟩ := hland
      have hnext := hm' t locals' w' hw'
      rw [List.append_nil] at hnext
      exact hnext.after hr (Nat.le_add_left _ _)
    | «break» => exact .inr ⟨ip, top, locals', w', hland, hw', hr⟩
    | «continue» => exact .inr ⟨ip, top, locals', w', hland, hw', hr⟩
    | «return» v => cases hland

theorem child {m : Exec h (Flow h.V)}
    (hm : M.Executes fuel (.empty :: scopes) m p ops
      (stmtLands h.V (.empty :: scopes) scopes' ends q))
    (ho : SameOuter (.empty :: scopes) scopes') :
    M.Executes fuel scopes (Exec.inChild m) p ops (childLands h.V scopes ends q) := by
  intro s locals w hw
  have hrun := hm _ locals w hw.child
  rw [Exec.inChild]
  rcases hms : m { s with env := s.env.child } with _ | ⟨r, t⟩
  · rwa [hms] at hrun
  rw [hms] at hrun
  cases r with
  | error e => exact hrun
  | ok flow =>
    rcases hrun with ⟨v, rfl, hret⟩ | ⟨ip, top, locals', w', hland, hw', hr⟩
    · exact .inl ⟨v, rfl, hret⟩
    have hpop : ∀ sc, top = sc :: scopes →
        Matches M.slots M.defined scopes { t with env := t.env.tail } locals' w' := by
      intro sc hsc
      rw [hsc] at hw'
      exact hw'.tail
    cases flow with
    | normal =>
      obtain ⟨hip, htop⟩ := hland
      obtain ⟨sc, hsc⟩ := ho.cons
      exact .inr ⟨ip, scopes, locals', w', ⟨hip, rfl⟩, hpop sc (htop.trans hsc), hr⟩
    | «break» =>
      obtain ⟨sc, hsc⟩ := hland.2.cons
      exact .inr ⟨ip, scopes, locals', w', ⟨hland.1, rfl⟩, hpop sc hsc, hr⟩
    | «continue» =>
      obtain ⟨sc, hsc⟩ := hland.2.cons
      exact .inr ⟨ip, scopes, locals', w', ⟨hland.1, rfl⟩, hpop sc hsc, hr⟩
    | «return» v => cases hland

theorem weaken {m : Exec h (Flow h.V)}
    (hm : M.Executes fuel scopes m p ops (childLands h.V scopes ends q)) :
    M.Executes fuel scopes m p ops (stmtLands h.V scopes scopes ends q) :=
  hm.mono fun flow ip top hl => by
    cases flow with
    | normal => exact hl
    | «break» => exact ⟨hl.1, hl.2 ▸ SameOuter.refl _⟩
    | «continue» => exact ⟨hl.1, hl.2 ▸ SameOuter.refl _⟩
    | «return» v => exact hl

theorem jump {m : Exec h (Flow h.V)} {p' : Nat}
    (hm : M.Executes fuel scopes m p ops (childLands h.V scopes ends p'))
    (hj : ∀ st w, M.step (cfg p' st w) = .at (cfg q st w)) :
    M.Executes fuel scopes m p ops (childLands h.V scopes ends q) := by
  intro s locals w hw
  have hrun := hm s locals w hw
  rcases hms : m s with _ | ⟨r, t⟩
  · rwa [hms] at hrun
  rw [hms] at hrun
  cases r with
  | error e => exact hrun
  | ok flow =>
    rcases hrun with hret | ⟨ip, top, locals', w', hland, hw', hr⟩
    · exact .inl hret
    cases flow with
    | normal =>
      obtain ⟨rfl, htop⟩ := hland
      exact .inr ⟨q, top, locals', w', ⟨rfl, htop⟩, hw',
        (hr.trans (Reaches.of_step (hj locals' w'))).weaken (Nat.zero_le _)⟩
    | «break» => exact .inr ⟨ip, top, locals', w', hland, hw', hr⟩
    | «continue» => exact .inr ⟨ip, top, locals', w', hland, hw', hr⟩
    | «return» v => cases hland

theorem branch {cond : Eval h h.V} {m m' : Exec h (Flow h.V)} {p₁ p₂ p₃ : Nat}
    (hc : M.Pushes scopes cond p p₁) (hj : OpJump M.chunk .jumpIfFalse p₃ p₁ p₂)
    (hm : M.Executes fuel scopes m p₂ [] lands) (hm' : M.Executes fuel scopes m' p₃ [] lands) :
    M.Executes fuel scopes
      (Exec.eval cond >>= fun a => if h.isTruthy a = true then m else m') p [] lands := by
  refine .eval (hc []) fun a => .first (if h.isTruthy a then p₂ else p₃) [] (fun st w => ?_) ?_
  · simpa only [List.append_nil, List.nil_append] using step_jumpIfFalse st w hj a
  · by_cases ha : h.isTruthy a = true
    · rwa [if_pos ha, if_pos ha]
    · rwa [if_neg ha, if_neg ha]

theorem whileLoop {cond : Eval h h.V} {body : Exec h (Flow h.V)} {p₁ p₂ p₃ : Nat} {n : Nat}
    (hn : n ≤ fuel) (hc : M.Pushes scopes cond p p₁) (hj : OpJump M.chunk .jumpIfFalse q p₁ p₂)
    (hb : M.Executes fuel scopes body p₂ [] (childLands h.V scopes (some (q, p)) p₃))
    (hl : OpJump M.chunk .loop p p₃ p₄) :
    M.Executes n scopes
      (Exec.whileLoop (Exec.eval cond >>= fun a => pure (h.isTruthy a)) body n) p []
      (childLands h.V scopes ends q) := by
  induction n with
  | zero =>
    intro s locals w _
    exact ⟨_, .refl _⟩
  | succ n ih =>
    have ih := ih (Nat.le_of_succ_le hn)
    intro s locals w hw
    have hcond := hc [] s locals w hw
    rw [Exec.whileLoop, exec_bind, exec_bind]
    simp only [Exec.eval]
    rcases hcs : cond s with ⟨r, t⟩
    rw [hcs] at hcond
    cases r with
    | error e => exact hcond
    | ok a =>
      obtain ⟨locals₁, w₁, hw₁, hr₁⟩ := hcond
      have hjump : M.step (cfg p₁ (locals₁ ++ [a]) w₁) = _ := step_jumpIfFalse locals₁ w₁ hj a
      have hr := hr₁.trans (Reaches.of_step hjump)
      by_cases ha : h.isTruthy a = true
      · rw [if_pos ha] at hr
        have hbody := hb t locals₁ w₁ hw₁
        rw [List.append_nil] at hbody
        -- the rest of the loop, from where the turn leaves it
        have hturn : ∀ (t' : State h) locals₂ w₂, Matches M.slots M.defined scopes t' locals₂ w₂ →
            Reaches M.step 0 (cfg p₂ locals₁ w₁) (cfg p locals₂ w₂) →
            M.Follows (n + 1) (childLands h.V scopes ends q) (cfg p (locals ++ []) w)
              (Exec.whileLoop (Exec.eval cond >>= fun a => pure (h.isTruthy a)) body n t') := by
          intro t' locals₂ w₂ hw₂ hr₂
          have hrest := ih t' locals₂ w₂ hw₂
          rw [List.append_nil] at hrest
          exact hrest.after (hr.trans hr₂) (by omega)
        show M.Follows _ _ _ ((if h.isTruthy a = true then _ else _ : Exec h (Flow h.V)) t)
        rw [if_pos ha, exec_bind]
        rcases hbs : body t with _ | ⟨r, t'⟩
        · rw [hbs] at hbody
          exact (hr.runsFor hbody).weaken (by omega)
        rw [hbs] at hbody
        cases r with
        | error e => exact Raises.after hr hbody
        | ok flow =>
          rcases hbody with ⟨v, rfl, hret⟩ | ⟨ip, top, locals₂, w₂, hland, hw₂, hr₂⟩
          · exact Lands.after hr (.inl ⟨v, rfl, hret⟩)
          cases flow with
          | normal =>
            obtain ⟨rfl, rfl⟩ := hland
            have hloop : M.step (cfg ip locals₂ w₂) = _ := step_loop locals₂ w₂ hl
            exact hturn t' locals₂ w₂ hw₂
              ((hr₂.trans (Reaches.of_step hloop)).weaken (Nat.zero_le _))
          | «break» =>
            obtain ⟨⟨k, hk⟩, rfl⟩ := hland
            cases hk
            exact Lands.after hr (.inr ⟨_, _, locals₂, w₂, ⟨rfl, rfl⟩, hw₂, hr₂⟩)
          | «continue» =>
            obtain ⟨⟨b, hk⟩, rfl⟩ := hland
            cases hk
            exact hturn t' locals₂ w₂ hw₂ hr₂
          | «return» v => cases hland
      · rw [if_neg ha] at hr
        show M.Follows _ _ _ ((if h.isTruthy a = true then _ else _ : Exec h (Flow h.V)) t)
        rw [if_neg ha]
        exact .inr ⟨q, scopes, locals₁, w₁, ⟨rfl, rfl⟩, hw₁, hr.weaken (Nat.zero_le _)⟩

end Executes
end Target
end AScript.Compile
