import AScript.Lib.Machine
import AScript.Lib.Notify
import Mathlib.Algebra.Ring.Int.Defs

universe u v

namespace AScript.Stdlib

open AScript.Lib

variable {τ : Type u} {T : Type v}

inductive BreakerState
  | closed
  | opened
  | halfOpen
  deriving DecidableEq

/-- The policy's options. Clock readings are compared as the host does; `tooMany` says that a
share of failures reaches the configured rate. -/
structure BreakerConfig (T : Type v) where
  name : String
  window : Nat
  minCalls : Nat
  cooldownMs : T
  halfOpenMax : Int
  tooMany : (failures filled : Nat) → Bool
  sub : T → T → T
  le : T → T → Bool
  forever : T

structure Breaker (T : Type v) where
  state : BreakerState
  ring : List Nat
  ringIdx : Nat
  calls : Nat
  failures : Nat
  rejected : Nat
  openedAtMs : Option T
  halfOpenInFlight : Int
  halfOpenSuccesses : Int

inductive Admission
  | call
  | probe
  | rejected (message code : String)

/-- How an admitted call ends; a result pair with an error is a failure. -/
inductive Ending
  | result (isFailure : Bool)
  | panic
  | propagate
  | exit
  deriving DecidableEq

namespace Breaker

def new : Breaker T := ⟨.closed, [], 0, 0, 0, 0, none, 0, 0⟩

def reset (_ : Breaker T) : Breaker T := new

section Calls

variable (cfg : BreakerConfig T)

def reject (b : Breaker T) : Admission × Breaker T :=
  (.rejected ("circuit breaker '" ++ cfg.name ++ "' is open") "breaker-open",
    { b with rejected := b.rejected + 1 })

def elapsed (b : Breaker T) (now : T) : T := (b.openedAtMs.map (cfg.sub now)).getD cfg.forever

def admission (b : Breaker T) (now : T) : Admission × Breaker T :=
  match b.state with
  | .closed => (.call, b)
  | .opened =>
    if cfg.le cfg.cooldownMs (b.elapsed cfg now) then
      (.probe, { b with state := .halfOpen, halfOpenInFlight := 1, halfOpenSuccesses := 0 })
    else b.reject cfg
  | .halfOpen =>
    if b.halfOpenInFlight < cfg.halfOpenMax then
      (.probe, { b with halfOpenInFlight := b.halfOpenInFlight + 1 })
    else b.reject cfg

def endProbe (b : Breaker T) (isProbe : Bool) : Breaker T :=
  if isProbe then { b with halfOpenInFlight := max (b.halfOpenInFlight - 1) 0 } else b

def recordRing (b : Breaker T) (isFailure : Bool) : Breaker T :=
  { b with
    ring :=
      if b.ring.length < cfg.window then b.ring ++ [isFailure.toNat]
      else b.ring.set (b.ringIdx % cfg.window) isFailure.toNat
    ringIdx := b.ringIdx + 1
    calls := b.calls + 1
    failures := b.failures + isFailure.toNat }

def tripped (b : Breaker T) : Bool :=
  let filled := min b.calls cfg.window
  let start := if filled = cfg.window then b.ringIdx % cfg.window else 0
  let failed := ((List.range filled).map fun i => b.ring[(start + i) % cfg.window]?.getD 0).sum
  cfg.minCalls ≤ b.calls && cfg.tooMany failed filled

def trip (b : Breaker T) (now : T) : Breaker T :=
  { b with
    state := .opened
    openedAtMs := some now
    halfOpenInFlight := 0
    halfOpenSuccesses := 0 }

def probeSucceeded (b : Breaker T) : Breaker T :=
  let successes := b.halfOpenSuccesses + 1
  if cfg.halfOpenMax ≤ successes then
    { b with
      state := .closed
      ring := []
      ringIdx := 0
      calls := 0
      failures := 0
      halfOpenInFlight := 0
      halfOpenSuccesses := 0 }
  else { b with halfOpenSuccesses := successes }

def recordOutcome (b : Breaker T) (isFailure isProbe allowTransition : Bool) (now : T) :
    Breaker T :=
  let b' := b.recordRing cfg isFailure
  if !allowTransition then b'
  else match b.state with
    | .closed => if b'.tripped cfg then b'.trip now else b'
    | .halfOpen =>
      if isProbe then if isFailure then b'.trip now else b'.probeSucceeded cfg
      else b'
    | .opened => b'

/-- `now` is the reading that the call was admitted at. -/
def finish (b : Breaker T) (isProbe : Bool) (now : T) : Ending → Breaker T
  | .propagate => b.endProbe isProbe
  | .exit => b.endProbe isProbe
  | .panic => (b.endProbe isProbe).recordOutcome cfg true isProbe false now
  | .result isFailure => (b.endProbe isProbe).recordOutcome cfg isFailure isProbe true now

def opens (b : Breaker T) (isProbe : Bool) : Ending → Bool
  | .result isFailure =>
    match b.state with
    | .closed => (b.recordRing cfg isFailure).tripped cfg
    | .halfOpen => isProbe && isFailure
    | .opened => false
  | _ => false

end Calls

section Finish

variable {cfg : BreakerConfig T} {b b' : Breaker T}

@[simp] theorem endProbe_state : (b.endProbe isProbe).state = b.state := by
  cases isProbe <;> rfl

@[simp] theorem endProbe_openedAtMs : (b.endProbe isProbe).openedAtMs = b.openedAtMs := by
  cases isProbe <;> rfl

theorem tripped_endProbe :
    ((b.endProbe isProbe).recordRing cfg isFailure).tripped cfg =
      (b.recordRing cfg isFailure).tripped cfg := by
  cases isProbe <;> rfl

theorem admission_cases (h : b.admission cfg now = (a, b')) :
    (b.state = .closed ∧ a = .call ∧ b' = b) ∨
    (b.state = .opened ∧ cfg.le cfg.cooldownMs (b.elapsed cfg now) = true ∧ a = .probe ∧
      b'.state = .halfOpen ∧ b'.halfOpenInFlight = 1) ∨
    (b.state = .halfOpen ∧ b.halfOpenInFlight < cfg.halfOpenMax ∧ a = .probe ∧
      b'.state = .halfOpen ∧ b'.halfOpenInFlight = b.halfOpenInFlight + 1) ∨
    ((∃ message code, a = .rejected message code) ∧ b'.state = b.state ∧
      b'.openedAtMs = b.openedAtMs ∧ b'.halfOpenInFlight = b.halfOpenInFlight) := by
  cases hs : b.state with
  | closed =>
    simp only [admission, hs] at h
    cases h
    exact .inl ⟨rfl, rfl, rfl⟩
  | opened =>
    simp only [admission, hs] at h
    split at h
    next hcool =>
      cases h
      exact .inr (.inl ⟨rfl, hcool, rfl, rfl, rfl⟩)
    next =>
      cases h
      exact .inr (.inr (.inr ⟨⟨_, _, rfl⟩, hs, rfl, rfl⟩))
  | halfOpen =>
    simp only [admission, hs] at h
    split at h
    next hlt =>
      cases h
      exact .inr (.inr (.inl ⟨rfl, hlt, rfl, rfl, rfl⟩))
    next =>
      cases h
      exact .inr (.inr (.inr ⟨⟨_, _, rfl⟩, hs, rfl, rfl⟩))

theorem probeSucceeded_cases (cfg : BreakerConfig T) (b : Breaker T) :
    ((b.probeSucceeded cfg).state = .closed ∧ (b.probeSucceeded cfg).halfOpenInFlight = 0) ∨
    ((b.probeSucceeded cfg).state = b.state ∧ (b.probeSucceeded cfg).openedAtMs = b.openedAtMs ∧
      (b.probeSucceeded cfg).halfOpenInFlight = b.halfOpenInFlight) := by
  rw [probeSucceeded]
  split
  · exact .inl ⟨rfl, rfl⟩
  · exact .inr ⟨rfl, rfl, rfl⟩

theorem finish_cases (cfg : BreakerConfig T) (b : Breaker T) (isProbe : Bool) (now : T)
    (e : Ending) :
    (b.opens cfg isProbe e = true ∧ b.state ≠ .opened ∧
      (b.finish cfg isProbe now e).state = .opened ∧
      (b.finish cfg isProbe now e).openedAtMs = some now ∧
      (b.finish cfg isProbe now e).halfOpenInFlight = 0) ∨
    (b.state = .halfOpen ∧ (b.finish cfg isProbe now e).state = .closed ∧
      (b.finish cfg isProbe now e).halfOpenInFlight = 0) ∨
    ((b.finish cfg isProbe now e).state = b.state ∧
      (b.finish cfg isProbe now e).openedAtMs = b.openedAtMs ∧
      (b.finish cfg isProbe now e).halfOpenInFlight = (b.endProbe isProbe).halfOpenInFlight) := by
  cases e with
  | propagate => exact .inr (.inr ⟨endProbe_state, endProbe_openedAtMs, rfl⟩)
  | exit => exact .inr (.inr ⟨endProbe_state, endProbe_openedAtMs, rfl⟩)
  | panic => exact .inr (.inr ⟨endProbe_state, endProbe_openedAtMs, rfl⟩)
  | result isFailure =>
    cases hs : b.state with
    | opened =>
      refine .inr (.inr ?_)
      simp [finish, recordOutcome, recordRing, hs]
    | closed =>
      cases ht : (b.recordRing cfg isFailure).tripped cfg with
      | true =>
        refine .inl ?_
        simp [finish, opens, recordOutcome, trip, hs, tripped_endProbe, ht]
      | false =>
        refine .inr (.inr ?_)
        simp [finish, recordOutcome, hs, tripped_endProbe, ht]
        simp [recordRing, hs]
    | halfOpen =>
      cases isProbe with
      | false =>
        refine .inr (.inr ?_)
        simp [finish, recordOutcome, recordRing, hs]
      | true =>
        cases isFailure with
        | true =>
          refine .inl ?_
          simp [finish, opens, recordOutcome, trip, hs]
        | false =>
          have heq : b.finish cfg true now (.result false) =
              ((b.endProbe true).recordRing cfg false).probeSucceeded cfg := by
            simp [finish, recordOutcome, hs]
          rw [heq]
          rcases probeSucceeded_cases cfg ((b.endProbe true).recordRing cfg false) with h | h
          · exact .inr (.inl ⟨rfl, h⟩)
          · exact .inr (.inr ⟨h.1.trans hs, h.2⟩)

end Finish

structure Call (τ : Type u) (T : Type v) where
  task : τ
  isProbe : Bool
  now : T
  episode : Nat

/-- The breaker among its calls; with it, for the record only, how many half-open episodes have
begun and when it last became open. -/
structure System (τ : Type u) (T : Type v) where
  breaker : Breaker T
  clock : T
  calls : List (Call τ T)
  episode : Nat
  openSince : T

inductive Event (τ : Type u) (T : Type v)
  | call (t : τ)
  | finish (k : Nat) (e : Ending)
  | cancel (k : Nat)
  | reset
  | advance (clock : T)

inductive Effect (τ : Type u)
  | admitted (t : τ) (isProbe : Bool)
  | rejected (t : τ) (message code : String)
  | silent

namespace System

def start (clock : T) : System τ T := ⟨.new, clock, [], 0, clock⟩

def note (s : System τ T) (b : Breaker T) : System τ T :=
  { s with
    breaker := b
    episode :=
      if s.breaker.state ≠ .halfOpen ∧ b.state = .halfOpen then s.episode + 1 else s.episode
    openSince := if s.breaker.state ≠ .opened ∧ b.state = .opened then s.clock else s.openSince }

def enter (s : System τ T) (t : τ) (isProbe : Bool) : System τ T :=
  { s with calls := s.calls ++ [⟨t, isProbe, s.clock, s.episode⟩] }

def leave (s : System τ T) (k : Nat) : System τ T := { s with calls := s.calls.eraseIdx k }

def step (cfg : BreakerConfig T) (s : System τ T) : Event τ T → Option (Effect τ × System τ T)
  | .call t =>
    match s.breaker.admission cfg s.clock with
    | (.call, b) => some (.admitted t false, (s.note b).enter t false)
    | (.probe, b) => some (.admitted t true, (s.note b).enter t true)
    | (.rejected message code, b) => some (.rejected t message code, s.note b)
  | .finish k e => s.calls[k]?.map fun c =>
    (.silent, (s.leave k).note (s.breaker.finish cfg c.isProbe c.now e))
  -- nothing runs behind the call when it is dropped
  | .cancel k => s.calls[k]?.map fun _ => (.silent, s.leave k)
  | .reset => some (.silent, s.note s.breaker.reset)
  | .advance clock => some (.silent, { s with clock })

def machine (cfg : BreakerConfig T) : Machine (System τ T) (Event τ T) (Effect τ) := ⟨step cfg⟩

/-- The unfinished probes of an episode. -/
def probesOf (s : System τ T) (episode : Nat) : Nat :=
  s.calls.countP fun c => c.isProbe && c.episode == episode

/-- The unfinished probes of the episode that is on, if one is. -/
def probes (s : System τ T) : Nat :=
  if s.breaker.state = .halfOpen then s.probesOf s.episode else 0

/-- No probe ends in a later episode than its own, none is cancelled in its own, and a call that
opens the breaker has taken no time. -/
def Orderly (cfg : BreakerConfig T) (s : System τ T) : Event τ T → Prop
  | .finish k e => ∀ c, s.calls[k]? = some c →
    (c.isProbe = true → s.breaker.state = .halfOpen → c.episode = s.episode) ∧
      (s.breaker.opens cfg c.isProbe e = true → c.now = s.clock)
  | .cancel k => ∀ c, s.calls[k]? = some c →
    c.isProbe = true → s.breaker.state = .halfOpen → c.episode ≠ s.episode
  | _ => True

structure Inv (cfg : BreakerConfig T) (s : System τ T) : Prop where
  counted : s.breaker.halfOpenInFlight = s.probes
  bounded : ∀ episode, s.probesOf episode ≤ cfg.halfOpenMax
  opened : s.breaker.state = .opened → s.breaker.openedAtMs = some s.openSince
  episodes : ∀ c ∈ s.calls, c.episode ≤ s.episode

section Steps

variable {cfg : BreakerConfig T} {s s' : System τ T} {b : Breaker T}

theorem inv_start (hmax : 0 < cfg.halfOpenMax) (clock : T) :
    Inv cfg (start clock : System τ T) where
  counted := rfl
  bounded _ := Int.le_of_lt hmax
  opened h := nomatch h
  episodes _ hc := nomatch hc

theorem probesOf_enter (t : τ) (isProbe : Bool) (e : Nat) :
    (s.enter t isProbe).probesOf e =
      s.probesOf e + if isProbe = true ∧ s.episode = e then 1 else 0 := by
  simp only [enter, probesOf, List.countP_append, List.countP_singleton, Bool.and_eq_true,
    beq_iff_eq]

theorem probesOf_leave (hc : s.calls[k]? = some c) (e : Nat) :
    s.probesOf e = (s.leave k).probesOf e +
      if c.isProbe = true ∧ c.episode = e then 1 else 0 := by
  simp only [leave, probesOf, (Notify.perm_eraseIdx hc).countP_eq, List.countP_cons,
    Bool.and_eq_true, beq_iff_eq]

theorem probesOf_succ_episode (h : Inv cfg s) (he : s.episode < e) : s.probesOf e = 0 := by
  rw [probesOf, List.countP_eq_zero]
  intro c hc hp
  have hle := h.episodes c hc
  simp only [Bool.and_eq_true, beq_iff_eq] at hp
  omega

theorem note_same (s : System τ T) (hb : b.state = s.breaker.state) :
    s.note b = { s with breaker := b } := by
  simp [note, hb]

theorem note_closed (s : System τ T) (hb : b.state = .closed) :
    s.note b = { s with breaker := b } := by
  simp [note, hb]

theorem note_opened (s : System τ T) (hs : s.breaker.state ≠ .opened) (hb : b.state = .opened) :
    s.note b = { s with breaker := b, openSince := s.clock } := by
  simp [note, hs, hb]

theorem note_halfOpen (s : System τ T) (hs : s.breaker.state = .opened) (hb : b.state = .halfOpen) :
    s.note b = { s with breaker := b, episode := s.episode + 1 } := by
  simp [note, hs, hb]

theorem probes_of_halfOpen (hs : s.breaker.state = .halfOpen) : s.probes = s.probesOf s.episode :=
  if_pos hs

theorem probes_of_ne (hs : s.breaker.state ≠ .halfOpen) : s.probes = 0 := if_neg hs

theorem enter_episodes (h : ∀ c ∈ s.calls, c.episode ≤ s.episode) (t : τ) (isProbe : Bool) :
    ∀ c ∈ (s.enter t isProbe).calls, c.episode ≤ s.episode := by
  intro c hc
  cases List.mem_append.mp hc with
  | inl hc => exact h c hc
  | inr hc =>
    cases List.mem_singleton.mp hc
    exact Nat.le_refl _

theorem enter_call_inv (h : Inv cfg s) (t : τ) : Inv cfg (s.enter t false) := by
  have hp (e : Nat) : (s.enter t false).probesOf e = s.probesOf e := by
    rw [probesOf_enter, if_neg fun h => (nomatch h.1), Nat.add_zero]
  refine ⟨?_, fun e => ?_, h.opened, enter_episodes h.episodes t false⟩
  · rw [probes, hp]
    exact h.counted
  · rw [hp]
    exact h.bounded e

theorem enter_probe_inv (hs : s.breaker.state = .halfOpen)
    (hin : s.breaker.halfOpenInFlight = s.probesOf s.episode + 1)
    (hmax : s.breaker.halfOpenInFlight ≤ cfg.halfOpenMax)
    (hb : ∀ e, s.probesOf e ≤ cfg.halfOpenMax) (he : ∀ c ∈ s.calls, c.episode ≤ s.episode)
    (t : τ) : Inv cfg (s.enter t true) := by
  have hown : (s.enter t true).probesOf s.episode = s.probesOf s.episode + 1 := by
    rw [probesOf_enter, if_pos ⟨rfl, rfl⟩]
  refine ⟨?_, fun e => ?_, fun ho => ?_, enter_episodes he t true⟩
  · have hp : (s.enter t true).probes = (s.enter t true).probesOf s.episode := probes_of_halfOpen hs
    rw [hp, hown]
    exact hin
  · rcases eq_or_ne s.episode e with rfl | hne
    · rw [hown]
      exact Int.le_trans (Int.le_of_eq hin.symm) hmax
    · rw [probesOf_enter, if_neg fun h => hne h.2]
      exact hb e
  · cases hs.symm.trans ho

theorem keep_inv (h : Inv cfg s) (hst : b.state = s.breaker.state)
    (hop : b.openedAtMs = s.breaker.openedAtMs)
    (hin : b.halfOpenInFlight = s.breaker.halfOpenInFlight) : Inv cfg (s.note b) := by
  rw [note_same s hst]
  refine ⟨?_, h.bounded, fun ho => hop.trans (h.opened (hst.symm.trans ho)), h.episodes⟩
  rw [hin, h.counted, probes, probes, hst]
  rfl

theorem call_inv (h : Inv cfg s) (hmax : 0 < cfg.halfOpenMax)
    (hs : step cfg s (.call t) = some (o, s')) : Inv cfg s' := by
  have hcount := h.counted
  simp only [step] at hs
  cases ha : s.breaker.admission cfg s.clock with
  | mk a b =>
    rw [ha] at hs
    obtain ⟨hst, rfl, rfl⟩ | ⟨hst, -, rfl, hb, hin⟩ | ⟨hst, hlt, rfl, hb, hin⟩ |
      ⟨⟨m, c, rfl⟩, hb, hop, hin⟩ := admission_cases ha
    · cases hs
      rw [note_same s rfl]
      exact enter_call_inv h t
    · cases hs
      have hnew := probesOf_succ_episode h (Nat.lt_succ_self s.episode)
      rw [note_halfOpen s hst hb]
      refine enter_probe_inv ?_ ?_ ?_ ?_ ?_ t
      · exact hb
      · have hzero : probesOf { s with breaker := b, episode := s.episode + 1 } (s.episode + 1) =
          0 :=
          hnew
        rw [hin]
        simp only [hzero]
        rfl
      · exact Int.le_trans (Int.le_of_eq hin) hmax
      · exact h.bounded
      · exact fun c hc => Nat.le_succ_of_le (h.episodes c hc)
    · cases hs
      rw [probes_of_halfOpen hst] at hcount
      rw [note_same s (hb.trans hst.symm)]
      refine enter_probe_inv ?_ ?_ ?_ ?_ ?_ t
      · exact hb
      · exact hin.trans (congrArg (· + 1) hcount)
      · exact Int.le_trans (Int.le_of_eq hin) hlt
      · exact h.bounded
      · exact h.episodes
    · cases hs
      exact keep_inv h hb hop hin

theorem call_cooled (h : Inv cfg s) (hst : s.breaker.state = .opened)
    (hs : step cfg s (.call t) = some (.admitted t' isProbe, s')) :
    cfg.le cfg.cooldownMs (cfg.sub s.clock s.openSince) = true := by
  simp only [step] at hs
  cases ha : s.breaker.admission cfg s.clock with
  | mk a b =>
    rw [ha] at hs
    obtain ⟨hst', -, -⟩ | ⟨-, hcool, -, -, -⟩ | ⟨hst', -, -, -, -⟩ | ⟨⟨m, c, rfl⟩, -, -, -⟩ :=
      admission_cases ha
    · cases hst.symm.trans hst'
    · rw [elapsed, h.opened hst] at hcool
      exact hcool
    · cases hst.symm.trans hst'
    · cases hs

theorem leave_bounded (h : Inv cfg s) (hc : s.calls[k]? = some c) (e : Nat) :
    ((s.leave k).probesOf e : Int) ≤ cfg.halfOpenMax := by
  have hle := h.bounded e
  rw [probesOf_leave hc] at hle
  omega

theorem leave_episodes (h : Inv cfg s) (k : Nat) :
    ∀ c ∈ (s.leave k).calls, c.episode ≤ s.episode :=
  fun c hc => h.episodes c (List.mem_of_mem_eraseIdx hc)

theorem cancel_inv (h : Inv cfg s) (hc : s.calls[k]? = some c)
    (he : c.isProbe = true → s.breaker.state = .halfOpen → c.episode ≠ s.episode) :
    Inv cfg (s.leave k) := by
  refine ⟨?_, leave_bounded h hc, h.opened, leave_episodes h k⟩
  refine h.counted.trans (congrArg Nat.cast ?_)
  rcases eq_or_ne s.breaker.state .halfOpen with hst | hst
  · have hp : (s.leave k).probes = (s.leave k).probesOf s.episode := probes_of_halfOpen hst
    rw [probes_of_halfOpen hst, hp, probesOf_leave hc, if_neg fun hown => he hown.1 hst hown.2]
    rfl
  · have hp : (s.leave k).probes = 0 := probes_of_ne hst
    rw [probes_of_ne hst, hp]

theorem endProbe_counted (h : Inv cfg s) (hc : s.calls[k]? = some c)
    (he : c.isProbe = true → s.breaker.state = .halfOpen → c.episode = s.episode) :
    (s.breaker.endProbe c.isProbe).halfOpenInFlight = (s.leave k).probes := by
  have hcount := h.counted
  rcases eq_or_ne s.breaker.state .halfOpen with hst | hst
  · have hp : (s.leave k).probes = (s.leave k).probesOf s.episode := probes_of_halfOpen hst
    rw [probes_of_halfOpen hst, probesOf_leave hc] at hcount
    rw [hp]
    cases hprobe : c.isProbe with
    | false =>
      rw [if_neg fun hown => by rw [hprobe] at hown; exact nomatch hown.1] at hcount
      simpa [endProbe] using hcount
    | true =>
      rw [if_pos ⟨hprobe, he hprobe hst⟩] at hcount
      simp only [endProbe, ↓reduceIte]
      omega
  · have hp : (s.leave k).probes = 0 := probes_of_ne hst
    rw [probes_of_ne hst] at hcount
    rw [hp]
    cases c.isProbe with
    | false => exact hcount
    | true =>
      simp only [endProbe, ↓reduceIte]
      omega

theorem finish_inv (h : Inv cfg s) (hc : s.calls[k]? = some c)
    (he : c.isProbe = true → s.breaker.state = .halfOpen → c.episode = s.episode)
    (hopen : s.breaker.opens cfg c.isProbe e = true → c.now = s.clock) :
    Inv cfg ((s.leave k).note (s.breaker.finish cfg c.isProbe c.now e)) := by
  obtain ⟨ho, hne, hst, hat, hin⟩ | ⟨-, hst, hin⟩ | ⟨hst, hat, hin⟩ :=
    finish_cases cfg s.breaker c.isProbe c.now e
  · rw [note_opened (s.leave k) hne hst]
    refine ⟨?_, leave_bounded h hc, fun _ => ?_, leave_episodes h k⟩
    · rw [probes_of_ne (by simp [hst])]
      exact hin
    · rw [hat, hopen ho]
      rfl
  · rw [note_closed (s.leave k) hst]
    refine ⟨?_, leave_bounded h hc, fun ho => ?_, leave_episodes h k⟩
    · rw [probes_of_ne (by simp [hst])]
      exact hin
    · cases hst.symm.trans ho
  · rw [note_same (s.leave k) hst]
    refine ⟨?_, leave_bounded h hc, fun ho => hat.trans (h.opened (hst.symm.trans ho)),
      leave_episodes h k⟩
    rw [hin, endProbe_counted h hc he, probes, probes, hst]
    rfl

theorem step_inv (hmax : 0 < cfg.halfOpenMax) (h : Inv cfg s) (he : Orderly cfg s e)
    (hs : step cfg s e = some (o, s')) : Inv cfg s' := by
  cases e with
  | call t => exact call_inv h hmax hs
  | finish k e =>
    obtain ⟨c, hc, heq⟩ := Option.map_eq_some_iff.mp hs
    cases heq
    exact finish_inv h hc (he c hc).1 (he c hc).2
  | cancel k =>
    obtain ⟨c, hc, heq⟩ := Option.map_eq_some_iff.mp hs
    cases heq
    exact cancel_inv h hc (he c hc)
  | reset =>
    cases hs
    rw [note_closed s rfl]
    exact ⟨rfl, h.bounded, fun ho => (nomatch ho), h.episodes⟩
  | advance clock =>
    cases hs
    exact ⟨h.counted, h.bounded, h.opened, h.episodes⟩

end Steps

/-- In a run whose steps are orderly the counter tells the probes of the episode that is on, no
episode has more of them than it may, and nobody enters before the cooldown has passed. -/
theorem breaker_safe {cfg : BreakerConfig T} {s : System τ T} {clock : T}
    (hmax : 0 < cfg.halfOpenMax)
    (hp : (machine cfg).Along (Orderly cfg) (start clock) es)
    (hr : (machine cfg).run (start clock) es = some (os, s)) :
    s.breaker.halfOpenInFlight = s.probes ∧
      (∀ episode, s.probesOf episode ≤ cfg.halfOpenMax) ∧
      ∀ t t' isProbe s', s.breaker.state = .opened →
        step cfg s (.call t) = some (.admitted t' isProbe, s') →
          cfg.le cfg.cooldownMs (cfg.sub s.clock s.openSince) = true := by
  have hinv : Inv cfg s :=
    ((machine cfg).run_along (Q := fun _ => True)
      (fun _ _ _ _ h he hs => ⟨trivial, step_inv hmax h he hs⟩) (inv_start hmax clock) hp hr).2
  exact ⟨hinv.counted, hinv.bounded, fun _ _ _ _ hst hs => call_cooled hinv hst hs⟩

/-- Whole milliseconds, and half of the window may not fail. -/
def millis (window : Nat) (cooldownMs halfOpenMax : Int) : BreakerConfig Int where
  name := "api"
  window := window
  minCalls := 1
  cooldownMs := cooldownMs
  halfOpenMax := halfOpenMax
  tooMany failures filled := filled ≤ 2 * failures
  sub := (· - ·)
  le a b := a ≤ b
  forever := 2 ^ 1024 - 2 ^ 971

def probeRun : List (Event Nat Int) :=
  [.call 0, .finish 0 (.result true), .advance 100, .call 1]

theorem breaker_safe_probe :
    ∃ os, ∃ s : System Nat Int, (machine (millis 4 100 1)).run (start 0) probeRun = some (os, s) ∧
      s.probes = 1 ∧ s.breaker.halfOpenInFlight = s.probes ∧ ∀ e, s.probesOf e ≤ 1 := by
  obtain ⟨os, s, hr, hone⟩ : ∃ os, ∃ s : System Nat Int,
      (machine (millis 4 100 1)).run (start 0) probeRun = some (os, s) ∧ s.probes = 1 :=
    ⟨_, _, rfl, rfl⟩
  have hp : (machine (millis 4 100 1)).Along (Orderly (millis 4 100 1)) (start 0) probeRun := by
    refine ⟨trivial, fun o s h => ?_⟩
    cases h
    refine ⟨fun c hc => ?_, fun o s h => ?_⟩
    · cases hc
      exact ⟨fun h => (nomatch h), fun _ => rfl⟩
    · cases h
      refine ⟨trivial, fun o s h => ?_⟩
      cases h
      exact ⟨trivial, fun _ _ _ => trivial⟩
  obtain ⟨hcount, hbound, -⟩ := breaker_safe (by decide) hp hr
  exact ⟨os, s, hr, hone, hcount, fun e => Int.ofNat_le.mp (hbound e)⟩

/-- A probe of an earlier episode ends in a later one, a probe is cancelled, and a call that took a
while opens the breaker. -/
theorem breaker_unsafe :
    (∃ os, ∃ s : System Nat Int, (machine (millis 4 100 2)).run (start 0)
        [.call 0, .finish 0 (.result true), .advance 100, .call 1, .call 2,
          .finish 0 (.result true), .advance 200, .call 3, .finish 0 .propagate, .call 4, .call 5] =
          some (os, s) ∧
      s.breaker.halfOpenInFlight ≠ s.probes ∧ ¬s.probesOf 2 ≤ 2) ∧
    (∃ os, ∃ s : System Nat Int, (machine (millis 4 100 1)).run (start 0)
        (probeRun ++ [.cancel 0]) = some (os, s) ∧
      s.breaker.halfOpenInFlight ≠ s.probes) ∧
    ∃ os, ∃ s s' : System Nat Int, (machine (millis 4 100 1)).run (start 0)
        [.call 0, .advance 90, .finish 0 (.result true), .advance 100] = some (os, s) ∧
      s.breaker.state = .opened ∧ step (millis 4 100 1) s (.call 1) = some (.admitted 1 true, s') ∧
      s.clock - s.openSince = 10 :=
  ⟨⟨_, _, rfl, by decide, by decide⟩, ⟨_, _, rfl, by decide⟩, _, _, _, rfl, rfl, rfl, rfl⟩

end System

end Breaker

end AScript.Stdlib
