import AScript.Lib.Ring
import AScript.Stdlib.Breaker
import Mathlib.Algebra.BigOperators.Group.List.Basic

universe u v

namespace AScript.Stdlib

open AScript.Lib

variable {τ : Type u} {T : Type v}

def Ending.recorded : Ending → Option Bool
  | .result isFailure => some isFailure
  | .panic => some true
  | .propagate | .exit => none

namespace Breaker

/-- The breaker among its calls with, for the record only, the outcomes recorded since it last
closed and the successful probes of the episode that is on. -/
structure Recorded (τ : Type u) (T : Type v) where
  sys : System τ T
  log : List Bool
  good : Nat

/-- Failures among the last `window` outcomes. -/
def failed (cfg : BreakerConfig T) (log : List Bool) : Nat :=
  (log.drop (log.length - cfg.window)).count true

def Trips (cfg : BreakerConfig T) (log : List Bool) : Prop :=
  cfg.minCalls ≤ log.length ∧
    cfg.tooMany (failed cfg log) (min log.length cfg.window) = true

instance (cfg : BreakerConfig T) (log : List Bool) : Decidable (Trips cfg log) :=
  inferInstanceAs (Decidable (_ ∧ _))

namespace Recorded

def start (clock : T) : Recorded τ T := ⟨.start clock, [], 0⟩

def isOwnProbe (r : Recorded τ T) (c : Call τ T) : Bool :=
  c.isProbe && r.sys.breaker.state == .halfOpen && c.episode == r.sys.episode

def note (r : Recorded τ T) (e : Event τ T) (s' : System τ T) : Recorded τ T :=
  match e with
  | .finish k e =>
    match r.sys.calls[k]?, e.recorded with
    | some c, some isFailure =>
      if r.sys.breaker.state ≠ .closed ∧ s'.breaker.state = .closed then
        ⟨s', [], r.good + (r.isOwnProbe c && !isFailure).toNat⟩
      else ⟨s', r.log ++ [isFailure], r.good + (r.isOwnProbe c && !isFailure).toNat⟩
    | _, _ => { r with sys := s' }
  | .call _ => ⟨s', r.log, if s'.episode = r.sys.episode then r.good else 0⟩
  | .reset => ⟨s', [], r.good⟩
  | .cancel _ | .advance _ => { r with sys := s' }

def step (cfg : BreakerConfig T) (r : Recorded τ T) (e : Event τ T) :
    Option (Effect τ × Recorded τ T) :=
  (System.step cfg r.sys e).map fun p => (p.1, r.note e p.2)

def machine (cfg : BreakerConfig T) : Machine (Recorded τ T) (Event τ T) (Effect τ) := ⟨step cfg⟩

/-- The transitions of one ending. -/
structure Lawful (cfg : BreakerConfig T) (r : Recorded τ T) (k : Nat) (e : Ending)
    (r' : Recorded τ T) : Prop where
  /-- A recorded ending opens the closed breaker exactly when the window says so. -/
  closed : r.sys.breaker.state = .closed → e.recorded ≠ none →
    (r'.sys.breaker.state = .opened ↔ Trips cfg r'.log)
  /-- A failed probe opens it again. -/
  probe : r.sys.breaker.state = .halfOpen → e.recorded = some true →
    (∃ c, r.sys.calls[k]? = some c ∧ c.isProbe = true) → r'.sys.breaker.state = .opened
  /-- It closes after enough successful probes of the episode. -/
  closes : r.sys.breaker.state = .halfOpen → r'.sys.breaker.state = .closed →
    cfg.halfOpenMax ≤ r'.good

/-- No panic ends a probe of a half-open breaker or is the failure that fills the window, and no
probe ends well in a later episode than its own. -/
def Obeys (cfg : BreakerConfig T) (r : Recorded τ T) : Event τ T → Prop
  | .finish k e => ∀ c, r.sys.calls[k]? = some c →
    (e = .panic → r.sys.breaker.state = .closed → ¬Trips cfg (r.log ++ [true])) ∧
      (e = .panic → r.sys.breaker.state = .halfOpen → c.isProbe = false) ∧
      (e = .result false → c.isProbe = true → r.sys.breaker.state = .halfOpen →
        c.episode = r.sys.episode)
  | _ => True

end Recorded

variable {cfg : BreakerConfig T} {b : Breaker T} {log : List Bool}

structure Logged (cfg : BreakerConfig T) (b : Breaker T) (log : List Bool) : Prop where
  ring : Ring.Holds cfg.window (log.map Bool.toNat) b.ring
  calls : b.calls = log.length
  ringIdx : b.ringIdx = log.length

theorem Logged.congr (h : Logged cfg b log) {b' : Breaker T} (hr : b'.ring = b.ring)
    (hc : b'.calls = b.calls) (hi : b'.ringIdx = b.ringIdx) : Logged cfg b' log :=
  ⟨hr ▸ h.ring, hc.trans h.calls, hi.trans h.ringIdx⟩

theorem Logged.endProbe (h : Logged cfg b log) (isProbe : Bool) :
    Logged cfg (b.endProbe isProbe) log := by
  cases isProbe <;> exact h.congr rfl rfl rfl

theorem Logged.recordRing (hw : 0 < cfg.window) (h : Logged cfg b log) (isFailure : Bool) :
    Logged cfg (b.recordRing cfg isFailure) (log ++ [isFailure]) := by
  refine ⟨?_, by simp [Breaker.recordRing, h.calls], by simp [Breaker.recordRing, h.ringIdx]⟩
  have hpush := h.ring.push hw isFailure.toNat
  rw [List.length_map, ← h.ringIdx] at hpush
  simpa [Ring.push, Breaker.recordRing] using hpush

theorem sum_toNat (l : List Bool) : (l.map Bool.toNat).sum = l.count true := by
  induction l with
  | nil => rfl
  | cons b l ih => cases b <;> simp [ih, Nat.add_comm]

theorem Logged.tripped (h : Logged cfg b log) : b.tripped cfg = true ↔ Trips cfg log := by
  have hread := congrArg (fun l : List (Option Nat) => (l.map fun o => o.getD 0).sum) h.ring.read
  simp only [List.map_map, List.length_map, ← List.map_drop] at hread
  have hfailed : ((log.drop (log.length - cfg.window)).map
      ((fun o : Option Nat => o.getD 0) ∘ some ∘ Bool.toNat)).sum = failed cfg log :=
    sum_toNat _
  rw [hfailed] at hread
  simp only [Breaker.tripped, Trips, h.calls, h.ringIdx, Bool.and_eq_true, decide_eq_true_eq]
  rw [← hread]
  rfl

section Finish

variable {isProbe isFailure : Bool} {now : T} {e : Ending}

def recordedEnd (cfg : BreakerConfig T) (b : Breaker T) (isProbe isFailure : Bool) : Breaker T :=
  (b.endProbe isProbe).recordRing cfg isFailure

theorem recordedEnd_state : (recordedEnd cfg b isProbe isFailure).state = b.state := endProbe_state

theorem recordedEnd_successes :
    (recordedEnd cfg b isProbe isFailure).halfOpenSuccesses = b.halfOpenSuccesses := by
  cases isProbe <;> rfl

theorem Logged.recordedEnd (hw : 0 < cfg.window) (h : Logged cfg b log)
    (isProbe isFailure : Bool) :
    Logged cfg (recordedEnd cfg b isProbe isFailure) (log ++ [isFailure]) :=
  (h.endProbe isProbe).recordRing hw isFailure

theorem finish_closed (hs : b.state = .closed) :
    b.finish cfg isProbe now (.result isFailure) =
      if (recordedEnd cfg b isProbe isFailure).tripped cfg then
        (recordedEnd cfg b isProbe isFailure).trip now
      else recordedEnd cfg b isProbe isFailure := by
  simp [finish, recordOutcome, hs, recordedEnd]
  rfl

theorem finish_opened (hs : b.state = .opened) :
    b.finish cfg isProbe now (.result isFailure) = recordedEnd cfg b isProbe isFailure := by
  simp [finish, recordOutcome, hs, recordedEnd]

theorem finish_other (hs : b.state = .halfOpen) :
    b.finish cfg false now (.result isFailure) = recordedEnd cfg b false isFailure := by
  simp [finish, recordOutcome, hs, recordedEnd]

theorem finish_probe_failed (hs : b.state = .halfOpen) :
    b.finish cfg true now (.result true) = (recordedEnd cfg b true true).trip now := by
  simp [finish, recordOutcome, hs, recordedEnd]

theorem finish_probe_succeeded (hs : b.state = .halfOpen) :
    b.finish cfg true now (.result false) = (recordedEnd cfg b true false).probeSucceeded cfg := by
  simp [finish, recordOutcome, hs, recordedEnd]

end Finish

theorem admission_logged (cfg : BreakerConfig T) (b : Breaker T) (now : T) :
    (b.admission cfg now).2.ring = b.ring ∧ (b.admission cfg now).2.calls = b.calls ∧
      (b.admission cfg now).2.ringIdx = b.ringIdx ∧
      ((b.admission cfg now).2.state = .halfOpen →
        b.state = .halfOpen ∧ (b.admission cfg now).2.halfOpenSuccesses = b.halfOpenSuccesses ∨
        b.state ≠ .halfOpen ∧ (b.admission cfg now).2.halfOpenSuccesses = 0) := by
  cases hst : b.state with
  | closed => simp [admission, hst]
  | opened =>
    simp only [admission, hst]
    split <;> simp [reject, hst]
  | halfOpen =>
    simp only [admission, hst]
    split <;> simp [reject]

namespace Recorded

structure Agrees (cfg : BreakerConfig T) (r : Recorded τ T) : Prop where
  logged : Logged cfg r.sys.breaker r.log
  successes : r.sys.breaker.state = .halfOpen → r.sys.breaker.halfOpenSuccesses = r.good

theorem agrees_start (clock : T) : Agrees cfg (start clock : Recorded τ T) where
  logged := ⟨.nil _, rfl, rfl⟩
  successes h := nomatch h

variable {r r' : Recorded τ T} {c : Call τ T}

theorem step_finish (hs : step cfg r (.finish k e) = some (o, r')) :
    ∃ c, r.sys.calls[k]? = some c ∧
      r'.sys.breaker = r.sys.breaker.finish cfg c.isProbe c.now e ∧
      (e.recorded = none → r'.log = r.log ∧ r'.good = r.good) ∧
      ∀ isFailure, e.recorded = some isFailure →
        r'.good = r.good + (r.isOwnProbe c && !isFailure).toNat ∧
        r'.log = if r.sys.breaker.state ≠ .closed ∧ r'.sys.breaker.state = .closed then []
          else r.log ++ [isFailure] := by
  obtain ⟨⟨o', s'⟩, hstep, heq⟩ := Option.map_eq_some_iff.mp hs
  obtain ⟨c, hc, hstep⟩ := Option.map_eq_some_iff.mp hstep
  cases hstep
  cases heq
  refine ⟨c, hc, ?_, fun hn => ?_, fun isFailure hf => ?_⟩
  · simp only [note, hc]
    split
    · split <;> rfl
    · rfl
  · simp only [note, hc, hn]
    exact ⟨trivial, trivial⟩
  · simp only [note, hc, hf]
    split <;> exact ⟨rfl, rfl⟩

theorem isOwnProbe_iff : r.isOwnProbe c = true ↔
    c.isProbe = true ∧ r.sys.breaker.state = .halfOpen ∧ c.episode = r.sys.episode := by
  simp [isOwnProbe, and_assoc]

theorem unrecorded_step (h : Agrees cfg r) (hn : e.recorded = none)
    (hb : r'.sys.breaker = r.sys.breaker.endProbe c.isProbe) (hlog : r'.log = r.log)
    (hgood : r'.good = r.good) : Agrees cfg r' ∧ Lawful cfg r k e r' := by
  have hst : r'.sys.breaker.state = r.sys.breaker.state := by rw [hb, endProbe_state]
  have hagrees : Agrees cfg r' := by
    refine ⟨?_, fun hhalf => ?_⟩
    · rw [hlog, hb]
      exact h.logged.endProbe _
    · rw [hgood, hb, ← h.successes (hst.symm.trans hhalf)]
      cases c.isProbe <;> rfl
  refine ⟨hagrees, fun _ hr => absurd hn hr, fun _ hr => ?_, fun h1 h2 => ?_⟩
  · rw [hn] at hr
    cases hr
  · cases (hst.symm.trans h2).symm.trans h1

theorem kept_step (hw : 0 < cfg.window) (h : Agrees cfg r)
    (hb : r'.sys.breaker = recordedEnd cfg r.sys.breaker c.isProbe isFailure)
    (hlog : r'.log = if r.sys.breaker.state ≠ .closed ∧ r'.sys.breaker.state = .closed then []
      else r.log ++ [isFailure])
    (hgood : r'.good = r.good) :
    Agrees cfg r' ∧ r'.sys.breaker.state = r.sys.breaker.state ∧
      r'.log = r.log ++ [isFailure] := by
  have hst : r'.sys.breaker.state = r.sys.breaker.state := by rw [hb, recordedEnd_state]
  rw [if_neg fun h => h.1 (hst.symm.trans h.2)] at hlog
  refine ⟨⟨?_, fun hhalf => ?_⟩, hst, hlog⟩
  · rw [hlog, hb]
    exact h.logged.recordedEnd hw _ _
  · rw [hgood, hb, recordedEnd_successes, h.successes (hst.symm.trans hhalf)]

theorem closed_step (hw : 0 < cfg.window) (h : Agrees cfg r) (hst : r.sys.breaker.state = .closed)
    (hb : r'.sys.breaker = r.sys.breaker.finish cfg c.isProbe c.now (.result isFailure))
    (hlog : r'.log = r.log ++ [isFailure]) :
    Agrees cfg r' ∧ Lawful cfg r k (.result isFailure) r' := by
  have hlogged := h.logged.recordedEnd hw c.isProbe isFailure
  have htrips := hlogged.tripped
  rw [finish_closed hst] at hb
  rw [← hlog] at hlogged htrips
  have hopen : r'.sys.breaker.state = .opened ↔ Trips cfg r'.log := by
    rw [hb, ← htrips]
    split
    next ht => exact ⟨fun _ => ht, fun _ => rfl⟩
    next ht =>
      rw [recordedEnd_state, hst]
      exact ⟨fun h => (nomatch h), fun h => absurd h ht⟩
  have hagrees : Agrees cfg r' := by
    refine ⟨?_, fun hhalf => ?_⟩
    · rw [hb]
      split
      · exact hlogged.congr rfl rfl rfl
      · exact hlogged
    · rw [hb] at hhalf
      split at hhalf
      · cases hhalf
      · cases hst.symm.trans (recordedEnd_state.symm.trans hhalf)
  refine ⟨hagrees, fun _ _ => hopen, fun hhalf => ?_, fun hhalf => ?_⟩
  · cases hst.symm.trans hhalf
  · cases hst.symm.trans hhalf

theorem failed_step (hw : 0 < cfg.window) (h : Agrees cfg r)
    (hst : r.sys.breaker.state = .halfOpen)
    (hb : r'.sys.breaker = (recordedEnd cfg r.sys.breaker true true).trip now)
    (hlog : r'.log = if r.sys.breaker.state ≠ .closed ∧ r'.sys.breaker.state = .closed then []
      else r.log ++ [true]) :
    Agrees cfg r' ∧ Lawful cfg r k (.result true) r' := by
  have hopen : r'.sys.breaker.state = .opened := by
    rw [hb]
    rfl
  rw [hopen, if_neg fun h => (by cases h.2)] at hlog
  have hlogged := h.logged.recordedEnd hw true true
  refine ⟨⟨?_, fun hhalf => ?_⟩, fun hcl => ?_, fun _ _ _ => hopen, fun _ hcl => ?_⟩
  · rw [hlog, hb]
    exact hlogged.congr rfl rfl rfl
  · cases hopen.symm.trans hhalf
  · cases hst.symm.trans hcl
  · cases hopen.symm.trans hcl

theorem succeeded_step (hw : 0 < cfg.window) (h : Agrees cfg r)
    (hst : r.sys.breaker.state = .halfOpen)
    (hb : r'.sys.breaker = (recordedEnd cfg r.sys.breaker true false).probeSucceeded cfg)
    (hlog : r'.log = if r.sys.breaker.state ≠ .closed ∧ r'.sys.breaker.state = .closed then []
      else r.log ++ [false]) (hgood : r'.good = r.good + 1) :
    Agrees cfg r' ∧ Lawful cfg r k (.result false) r' := by
  have hsucc : (recordedEnd cfg r.sys.breaker true false).halfOpenSuccesses = r.good := by
    rw [recordedEnd_successes, h.successes hst]
  have hclosed (hcl : r.sys.breaker.state = .closed) : False := by cases hst.symm.trans hcl
  have hne : r.sys.breaker.state ≠ .closed := hclosed
  rw [probeSucceeded, hsucc] at hb
  split at hb
  next hmax =>
    have hcl : r'.sys.breaker.state = .closed := by rw [hb]
    rw [if_pos ⟨hne, hcl⟩] at hlog
    refine ⟨⟨?_, fun hhalf => ?_⟩, fun hcl => (hclosed hcl).elim, fun _ hf => (by cases hf),
      fun _ _ => ?_⟩
    · rw [hlog, hb]
      exact ⟨.nil _, rfl, rfl⟩
    · cases hcl.symm.trans hhalf
    · rw [hgood]
      exact_mod_cast hmax
  next hmax =>
    have hhalf : r'.sys.breaker.state = .halfOpen := by
      rw [hb]
      show (recordedEnd cfg r.sys.breaker true false).state = .halfOpen
      rw [recordedEnd_state, hst]
    rw [hhalf, if_neg fun h => (by cases h.2)] at hlog
    refine ⟨⟨?_, fun _ => ?_⟩, fun hcl => (hclosed hcl).elim, fun _ hf => (by cases hf),
      fun _ hcl => ?_⟩
    · rw [hlog, hb]
      exact (h.logged.recordedEnd hw true false).congr rfl rfl rfl
    · rw [hgood, hb]
      rfl
    · cases hhalf.symm.trans hcl

theorem finish_step (hw : 0 < cfg.window) (h : Agrees cfg r) (ho : Obeys cfg r (.finish k e))
    (hs : step cfg r (.finish k e) = some (o, r')) : Agrees cfg r' ∧ Lawful cfg r k e r' := by
  obtain ⟨c, hc, hb, hnone, hsome⟩ := step_finish hs
  obtain ⟨hpanic, hprobe, hstale⟩ := ho c hc
  cases e with
  | propagate | exit =>
    obtain ⟨hlog, hgood⟩ := hnone rfl
    exact unrecorded_step h rfl hb hlog hgood
  | panic =>
    obtain ⟨hgood, hlog⟩ := hsome true rfl
    obtain ⟨hagrees, hst, hlog⟩ := kept_step hw h hb hlog (by simpa using hgood)
    refine ⟨hagrees, fun hcl _ => ?_, fun hhalf _ hp => ?_, fun h1 h2 => ?_⟩
    · rw [hst, hcl, hlog]
      exact ⟨fun h => (nomatch h), fun h => absurd h (hpanic rfl hcl)⟩
    · obtain ⟨c', hc', hp⟩ := hp
      cases hc.symm.trans hc'
      rw [hprobe rfl hhalf] at hp
      cases hp
    · cases (hst.symm.trans h2).symm.trans h1
  | result isFailure =>
    obtain ⟨hgood, hlog⟩ := hsome isFailure rfl
    have hother (hne : ¬(c.isProbe = true ∧ r.sys.breaker.state = .halfOpen)) :
        r'.good = r.good := by
      have hown : r.isOwnProbe c = false :=
        Bool.eq_false_iff.mpr fun h => hne ⟨(isOwnProbe_iff.mp h).1, (isOwnProbe_iff.mp h).2.1⟩
      simpa [hown] using hgood
    cases hst : r.sys.breaker.state with
    | closed =>
      rw [if_neg fun h => h.1 hst] at hlog
      exact closed_step hw h hst hb hlog
    | opened =>
      rw [finish_opened hst] at hb
      obtain ⟨hagrees, hst', -⟩ := kept_step hw h hb hlog (hother (by simp [hst]))
      refine ⟨hagrees, fun hcl => ?_, fun hhalf => ?_, fun hhalf => ?_⟩
      · cases hst.symm.trans hcl
      · cases hst.symm.trans hhalf
      · cases hst.symm.trans hhalf
    | halfOpen =>
      cases hp : c.isProbe with
      | false =>
        rw [hp, finish_other hst, ← hp] at hb
        obtain ⟨hagrees, hst', -⟩ := kept_step hw h hb hlog (hother (by simp [hp]))
        refine ⟨hagrees, fun hcl => ?_, fun _ _ hpr => ?_, fun _ hcl => ?_⟩
        · cases hst.symm.trans hcl
        · obtain ⟨c', hc', hpr⟩ := hpr
          cases hc.symm.trans hc'
          cases hp.symm.trans hpr
        · cases (hst'.trans hst).symm.trans hcl
      | true =>
        rw [hp] at hb
        cases isFailure with
        | true =>
          rw [finish_probe_failed hst] at hb
          exact failed_step hw h hst hb hlog
        | false =>
          rw [finish_probe_succeeded hst] at hb
          have hown : r.isOwnProbe c = true := isOwnProbe_iff.mpr ⟨hp, hst, hstale rfl hp hst⟩
          exact succeeded_step hw h hst hb hlog (by simpa [hown] using hgood)

theorem call_agrees (h : Agrees cfg r) (hs : step cfg r (.call t) = some (o, r')) :
    Agrees cfg r' := by
  obtain ⟨⟨o', s'⟩, hstep, heq⟩ := Option.map_eq_some_iff.mp hs
  cases heq
  have hadm : s'.breaker = (r.sys.breaker.admission cfg r.sys.clock).2 ∧
      s'.episode = if r.sys.breaker.state ≠ .halfOpen ∧ s'.breaker.state = .halfOpen then
        r.sys.episode + 1 else r.sys.episode := by
    simp only [System.step] at hstep
    split at hstep <;> cases hstep <;> next ha => exact ⟨by rw [ha]; rfl, rfl⟩
  obtain ⟨hb, hepisode⟩ := hadm
  obtain ⟨hring, hcalls, hidx, hsucc⟩ := admission_logged cfg r.sys.breaker r.sys.clock
  rw [← hb] at hring hcalls hidx hsucc
  refine ⟨h.logged.congr hring hcalls hidx, fun hhalf => ?_⟩
  rcases hsucc hhalf with ⟨hst, hsucc⟩ | ⟨hst, hsucc⟩
  · rw [if_neg fun h => h.1 hst] at hepisode
    rw [note, if_pos hepisode]
    exact hsucc.trans (h.successes hst)
  · rw [if_pos ⟨hst, hhalf⟩] at hepisode
    have hne : s'.episode ≠ r.sys.episode := by omega
    rw [note, if_neg hne]
    exact hsucc

theorem step_agrees (hw : 0 < cfg.window) (h : Agrees cfg r) (ho : Obeys cfg r e)
    (hs : step cfg r e = some (o, r')) : Agrees cfg r' := by
  cases e with
  | call t => exact call_agrees h hs
  | finish k e => exact (finish_step hw h ho hs).1
  | cancel k =>
    obtain ⟨⟨o', s'⟩, hstep, heq⟩ := Option.map_eq_some_iff.mp hs
    obtain ⟨c, -, hstep⟩ := Option.map_eq_some_iff.mp hstep
    cases hstep
    cases heq
    exact ⟨h.logged, h.successes⟩
  | reset =>
    cases hs
    exact ⟨⟨.nil _, rfl, rfl⟩, fun hhalf => (nomatch hhalf)⟩
  | advance clock =>
    cases hs
    exact ⟨h.logged, h.successes⟩

/-- In a run whose steps obey, every call that ends makes the lawful transition. -/
theorem breaker_lawful {cfg : BreakerConfig T} {r r' : Recorded τ T} {clock : T}
    (hw : 0 < cfg.window) (hp : (machine cfg).Along (Obeys cfg) (start clock) es)
    (hr : (machine cfg).run (start clock) es = some (os, r)) (ho : Obeys cfg r (.finish k e))
    (hs : step cfg r (.finish k e) = some (o, r')) : Lawful cfg r k e r' := by
  have hagrees : Agrees cfg r :=
    ((machine cfg).run_along (Q := fun _ => True)
      (fun _ _ _ _ h ho hs => ⟨trivial, step_agrees hw h ho hs⟩) (agrees_start clock) hp hr).2
  exact (finish_step hw hagrees ho hs).2

/-- A first call that fails opens a breaker that asks for one. -/
theorem breaker_lawful_failure : ∃ r r' : Recorded Nat Int,
    step (System.millis 4 100 1) r (.finish 0 (.result true)) = some (.silent, r') ∧
      r'.sys.breaker.state = .opened ∧
      Lawful (System.millis 4 100 1) r 0 (.result true) r' := by
  obtain ⟨r, r', hr, hs, hst⟩ : ∃ r r' : Recorded Nat Int,
      (machine (System.millis 4 100 1)).run (start 0) [.call 0] = some ([.admitted 0 false], r) ∧
        step (System.millis 4 100 1) r (.finish 0 (.result true)) = some (.silent, r') ∧
        r'.sys.breaker.state = .opened :=
    ⟨_, _, rfl, rfl, rfl⟩
  have hp : (machine (System.millis 4 100 1)).Along (Obeys (System.millis 4 100 1))
      (start 0 : Recorded Nat Int) [.call 0] := ⟨trivial, fun _ _ _ => trivial⟩
  exact ⟨r, r', hs, hst, breaker_lawful (by decide) hp hr
    (fun c _ => ⟨fun h => (nomatch h), fun h => (nomatch h), fun h => (nomatch h)⟩) hs⟩

/-- A panic that fills the window, a probe that panics, and a probe of an earlier episode that
counts towards closing a later one. -/
theorem breaker_unlawful :
    (∃ os, ∃ r r' : Recorded Nat Int,
      (machine (System.millis 4 100 1)).run (start 0) [.call 0] = some (os, r) ∧
        step (System.millis 4 100 1) r (.finish 0 .panic) = some (.silent, r') ∧
        ¬Lawful (System.millis 4 100 1) r 0 .panic r') ∧
    (∃ os, ∃ r r' : Recorded Nat Int,
      (machine (System.millis 4 100 1)).run (start 0)
          [.call 0, .finish 0 (.result true), .advance 100, .call 1] = some (os, r) ∧
        step (System.millis 4 100 1) r (.finish 0 .panic) = some (.silent, r') ∧
        ¬Lawful (System.millis 4 100 1) r 0 .panic r') ∧
    ∃ os, ∃ r r' : Recorded Nat Int,
      (machine (System.millis 4 100 2)).run (start 0)
          [.call 0, .finish 0 (.result true), .advance 100, .call 1, .call 2,
            .finish 0 (.result true), .advance 200, .call 3, .finish 0 (.result false)] =
            some (os, r) ∧
        step (System.millis 4 100 2) r (.finish 0 (.result false)) = some (.silent, r') ∧
        ¬Lawful (System.millis 4 100 2) r 0 (.result false) r' := by
  refine ⟨⟨_, _, _, rfl, rfl, fun h => ?_⟩, ⟨_, _, _, rfl, rfl, fun h => ?_⟩,
    _, _, _, rfl, rfl, fun h => ?_⟩
  · exact absurd ((h.closed rfl (by decide)).mpr (by decide)) (by decide)
  · exact absurd (h.probe rfl rfl ⟨_, rfl, rfl⟩) (by decide)
  · exact absurd (h.closes rfl rfl) (by decide)

end Recorded

end Breaker

end AScript.Stdlib
