import AScript.Compile.Related
import AScript.Compile.Steps
import AScript.Lib.Reach

namespace AScript.Compile

open AScript.Lib AScript.Syntax AScript.Bytecode Engine

variable {h : Host}

structure Target (h : Host) where
  chunk : Chunk
  others : Op → Nat → Cfg h → Arm h
  slots : Nat
  defined : List String

namespace Target

variable (M : Target h)

abbrev step : Cfg h → Outcome (Cfg h) (End h) := Engine.step M.chunk M.others

def Raises (fb : Cfg h) (e : h.E) (world : h.W) : Prop :=
  ∃ w, w.host = world ∧ Ends M.step fb (.raise e w)

def Settles (scopes : List Scope) (land : α → Nat × List h.V) (fb : Cfg h) :
    Except h.E α × State h → Prop
  | (.ok a, s) => ∃ locals w, Matches M.slots M.defined scopes s locals w ∧
      Reaches M.step 0 fb (cfg (land a).1 (locals ++ (land a).2) w)
  | (.error e, s) => M.Raises fb e s.world

def Simulates (scopes : List Scope) (m : Eval h α) (land : α → Nat × List h.V) (p : Nat)
    (ops : List h.V) : Prop :=
  ∀ s locals w, Matches M.slots M.defined scopes s locals w →
    M.Settles scopes land (cfg p (locals ++ ops) w) (m s)

def Pushes (scopes : List Scope) (m : Eval h h.V) (p q : Nat) : Prop :=
  ∀ ops, M.Simulates scopes m (fun v => (q, ops ++ [v])) p ops

end Target

def Yields (m : Eval h α) (a : α) : Prop := ∃ s s', m s = (.ok a, s')

theorem bind_apply (m : Eval h α) (f : α → Eval h β) (s : State h) :
    (m >>= f) s = match m s with
      | (.ok a, s') => f a s'
      | (.error e, s') => (.error e, s') := by
  show ExceptT.bindCont f (m s).1 (m s).2 = _
  rcases m s with ⟨r, s'⟩
  cases r <;> rfl

theorem Yields.of_bind {m : Eval h α} {f : α → Eval h β} (hy : Yields (m >>= f) b) :
    ∃ a, Yields m a ∧ Yields (f a) b := by
  obtain ⟨s, s', hs⟩ := hy
  rw [bind_apply] at hs
  rcases hm : m s with ⟨r, t⟩
  rw [hm] at hs
  cases r with
  | ok a => exact ⟨a, ⟨s, t, hm⟩, ⟨t, s', hs⟩⟩
  | error e => cases hs

theorem Yields.of_pure {a b : α} (hy : Yields (pure a : Eval h α) b) : b = a := by
  obtain ⟨s, s', hs⟩ := hy
  cases hs
  rfl

namespace Target

theorem step_return (M : Target h) (st : List h.V) (w : Vars h) (ho : OpAt M.chunk .«return» p q)
    (v : h.V) : ∃ fb, M.step (cfg p (st ++ [v]) w) = .done (.exit (some v) fb) ∧ fb.world = w :=
  Engine.step_return st w ho v

variable {M : Target h} {scopes : List Scope} {p q : Nat} {ops ops' : List h.V}

theorem Raises.after {fb fb' : Cfg h} (hr : Reaches M.step k fb fb') (he : M.Raises fb' e world) :
    M.Raises fb e world := by
  obtain ⟨w, hw, hend⟩ := he
  exact ⟨w, hw, hr.ends hend⟩

theorem Settles.after {fb fb' : Cfg h} {land : α → Nat × List h.V}
    {r : Except h.E α × State h} (hr : Reaches M.step k fb fb')
    (hs : M.Settles scopes land fb' r) : M.Settles scopes land fb r := by
  obtain ⟨r, t⟩ := r
  cases r with
  | error e => exact Raises.after hr hs
  | ok a =>
    obtain ⟨locals, w, hm, hr'⟩ := hs
    exact ⟨locals, w, hm, (hr.trans hr').weaken (Nat.zero_le _)⟩

namespace Simulates

variable {land : α → Nat × List h.V} {land' : β → Nat × List h.V}

theorem pure {a : α} (hl : land a = (p, ops)) :
    M.Simulates scopes (Pure.pure a : Eval h α) land p ops := by
  intro s locals w hm
  refine ⟨locals, w, hm, ?_⟩
  rw [hl]
  exact .refl _

theorem bind {m : Eval h α} {f : α → Eval h β} (hm : M.Simulates scopes m land p ops)
    (hf : ∀ a, Yields m a → M.Simulates scopes (f a) land' (land a).1 (land a).2) :
    M.Simulates scopes (m >>= f) land' p ops := by
  intro s locals w hs
  have hrun := hm s locals w hs
  rw [bind_apply]
  rcases hms : m s with ⟨r, t⟩
  rw [hms] at hrun
  cases r with
  | error e => exact hrun
  | ok a =>
    obtain ⟨locals', w', hs', hr⟩ := hrun
    exact (hf a ⟨s, t, hms⟩ t locals' w' hs').after hr

theorem map {m : Eval h α} {g : α → β} (hm : M.Simulates scopes m land p ops)
    (hg : ∀ a, Yields m a → land' (g a) = land a) :
    M.Simulates scopes (m >>= fun a => Pure.pure (g a)) land' p ops :=
  hm.bind fun a ha => .pure (hg a ha)

theorem first {m : Eval h α} (p' : Nat) (ops' : List h.V)
    (hs : ∀ st w, M.step (cfg p (st ++ ops) w) = .at (cfg p' (st ++ ops') w))
    (hm : M.Simulates scopes m land p' ops') : M.Simulates scopes m land p ops := by
  intro s locals w hw
  exact (hm s locals w hw).after (Reaches.of_step (hs locals w))

theorem world {f : h.W → Except h.E h.V × h.W}
    (hs : ∀ st w, M.step (cfg p (st ++ ops) w) = settled q (st ++ ops') w (f w.host)) :
    M.Simulates scopes (Eval.world f) (fun v => (q, ops' ++ [v])) p ops := by
  intro s locals w hm
  have hstep := hs locals w
  rw [Eval.world, hm.world]
  rcases hf : f w.host with ⟨r, host⟩
  rw [hf] at hstep
  cases r with
  | error e => exact ⟨{ w with host }, rfl, .of_step hstep⟩
  | ok v =>
    refine ⟨locals, { w with host }, hm.setWorld host, ?_⟩
    rw [← List.append_assoc]
    exact (Reaches.of_step hstep).weaken (Nat.zero_le 1)

end Simulates

theorem getElem?_append_getD {locals : List h.V} (hk : k < locals.length) (ops : List h.V) :
    (locals ++ ops)[k]? = some (locals.getD k h.nil) := by
  rw [List.getElem?_append_left hk, List.getD_eq_getElem?_getD, List.getElem?_eq_getElem hk,
    Option.getD_some]

variable {globals : ModuleGlobals}

def Fits (M : Target h) (scopes : List Scope) : Prop :=
  ∃ n, Resolver.Apart ⟨scopes, n⟩ ∧ n ≤ M.slots

theorem Fits.slot_lt (hf : M.Fits scopes) (hx : resolveLocal scopes x = some l) :
    l.slot < M.slots := by
  obtain ⟨n, ha, hn⟩ := hf
  obtain ⟨sc, hsc, hl⟩ := InnerMatch.mem_of_resolveLocal hx
  exact Nat.lt_of_lt_of_le (ha.below sc hsc x l hl) hn

theorem resolveName_local (hx : resolveLocal scopes x = some l) :
    resolveName globals scopes x = ⟨x, .local l.slot, !l.mutable⟩ := by
  simp only [resolveName, hx]

theorem resolveName_global (hx : resolveLocal scopes x = none) :
    resolveName globals scopes x = ⟨x, .global, globals.get x = some false⟩ := by
  simp only [resolveName, hx]

theorem pushes_ident (hf : M.Fits scopes) {x : String}
    (hc : NameCode M.chunk (resolveName globals scopes x) p q) :
    M.Pushes scopes (Eval.ident x) p q := by
  intro ops s locals w hm
  cases hx : resolveLocal scopes x with
  | some l =>
    rw [resolveName_local hx] at hc
    rw [Eval.ident, hm.get_local hx]
    refine ⟨locals, w, hm, Reaches.weaken (Reaches.of_step ?_) (Nat.zero_le 1)⟩
    rw [← List.append_assoc]
    exact step_getLocal _ w hc (getElem?_append_getD (hm.length ▸ hf.slot_lt hx) ops)
  | none =>
    rw [resolveName_global hx] at hc
    have hstep : M.step (cfg p (locals ++ ops) w) = _ := step_getGlobal (locals ++ ops) w hc
    rw [← hm.get_global hx] at hstep
    rw [Eval.ident]
    cases hg : s.env.get x with
    | none =>
      rw [hg] at hstep
      exact ⟨w, hm.world.symm, .of_step hstep⟩
    | some v =>
      rw [hg] at hstep
      refine ⟨locals, w, hm, ?_⟩
      rw [← List.append_assoc]
      exact (Reaches.of_step hstep).weaken (Nat.zero_le 1)

theorem simulates_assign (hf : M.Fits scopes) {x : String}
    (hx : Assignable (resolveName globals scopes x))
    (hc : StoreCode M.chunk (resolveName globals scopes x) p q) (v : h.V) (ops : List h.V) :
    M.Simulates scopes (Eval.assign x v) (fun v => (q, ops ++ [v])) p (ops ++ [v]) := by
  intro s locals w hm
  rw [← List.append_assoc]
  cases hl : resolveLocal scopes x with
  | some l =>
    rw [resolveName_local hl] at hc
    cases hmut : l.mutable with
    | false =>
      simp only [StoreCode, hmut, Bool.not_false, if_true] at hc
      rw [Eval.assign, hm.assign_immutable hl hmut]
      exact ⟨w, hm.world.symm, .of_step (step_immutableError _ w hc)⟩
    | true =>
      simp only [StoreCode, hmut, Bool.not_true, Bool.false_eq_true, if_false] at hc
      obtain ⟨m, hdup, hset⟩ := hc
      have hlt := hf.slot_lt hl
      obtain ⟨n, ha, -⟩ := hf
      obtain ⟨env, he, hm'⟩ := hm.assign_local ha hl hmut hlt v
      rw [Eval.assign, he]
      refine ⟨_, w, hm', ?_⟩
      have hk : l.slot < locals.length := hm.length ▸ hlt
      have h₁ : M.step (cfg p (locals ++ ops ++ [v]) w) = _ := step_dup (locals ++ ops) w hdup v
      have h₂ : M.step (cfg m (locals ++ ops ++ [v] ++ [v]) w) = _ :=
        step_setLocal (locals ++ ops ++ [v]) w hset (by simp; omega) v
      rw [show (locals ++ ops ++ [v]).set l.slot v = locals.set l.slot v ++ (ops ++ [v]) by
        rw [List.append_assoc, List.set_append_left _ _ hk]] at h₂
      exact ((Reaches.of_step h₁).trans (Reaches.of_step h₂)).weaken (Nat.zero_le _)
  | none =>
    rw [resolveName_global hl] at hc hx
    have hstep : M.step (cfg p (locals ++ ops ++ [v]) w) = _ :=
      step_setGlobal (locals ++ ops) w hc v
    rw [Eval.assign]
    rcases hm.assign_global hl (hx rfl) v with ⟨env, w', he, hset, hm'⟩ | ⟨he, hset⟩ | ⟨he, hset⟩
    · rw [hset, storedAt, List.append_assoc] at hstep
      rw [he]
      exact ⟨locals, w', hm', List.append_assoc locals ops [v] ▸
        (Reaches.of_step hstep).weaken (Nat.zero_le 1)⟩
    · rw [hset] at hstep
      rw [he]
      exact ⟨w, hm.world.symm, .of_step hstep⟩
    · rw [hset] at hstep
      rw [he]
      exact ⟨w, hm.world.symm, .of_step hstep⟩

end Target
end AScript.Compile
