import AScript.Det.Context
import AScript.Lib.Dialogue

namespace AScript.Det

open AScript.Lib

universe u

inductive SeamOp
  | clock
  | monotonic
  | random
  | bytes (n : Nat)
  | sleep (ms : Datum)

inductive WorkflowOp (V : Type u)
  | seam (op : SeamOp)
  | activity (name : String) (args : List V)

inductive Answer (V : Type u)
  | float (d : Datum)
  | bytes (b : Bytes)
  | unit
  | value (v : V)
  | error (message : String)
  deriving DecidableEq

/-- How activities are identified, and how their results are kept. -/
structure Persistence (V : Type u) where
  signatureHash : String → List V → UInt64
  isSerializable : V → Bool
  toJson : V → String
  fromJson : String → V

inductive Run (V : Type u)
  | done (outcome : Except String V)
  | seam (op : SeamOp) (next : Answer V → Run V)
  | call (name : String) (args : List V) (activity : Run V) (next : Answer V → Run V)

abbrev Perform (V : Type u) := List (Answer V) → String → List V → Run V

open DeterminismContext

section Seam

variable {V : Type u} (A : Persistence V) (perform : Perform V)

def seamCall (c : DeterminismContext) : SeamOp → Answer V × DeterminismContext
  | .clock => c.clockNowMs.map .float id
  | .monotonic => c.clockMonotonicMs.map .float id
  | .random => c.nextRandomF64.map .float id
  | .bytes n => (c.nextSeededBytes n).map .bytes id
  | .sleep ms => (.unit, c.sleep ms)

def completeActivity (c : DeterminismContext) (name : String) (args : List V) :
    Except String V → Answer V × DeterminismContext
  | .error msg => (.error msg, c)
  | .ok v =>
    if A.isSerializable v then
      (.value v, c.recordEvent (.activityCompleted name (A.signatureHash name args) (A.toJson v)))
    else
      (.error ("workflow: activity result is not serializable (return data, not a native " ++
        "handle/function/class)"), c)

def Run.record (c : DeterminismContext) : Run V → Except String V × DeterminismContext
  | done outcome => (outcome, c)
  | seam op next =>
    let (answer, c) := seamCall c op
    (next answer).record c
  | call name args activity next =>
    let (outcome, c) := activity.record c
    let (answer, c) := completeActivity A c name args outcome
    (next answer).record c

def runActivity (past : List (Answer V)) (c : DeterminismContext) (name : String) (args : List V) :
    Answer V × DeterminismContext :=
  let (outcome, c) := (perform past name args).record A c
  completeActivity A c name args outcome

def ctxCallActivity (past : List (Answer V)) (c : DeterminismContext) (name : String)
    (args : List V) : Answer V × DeterminismContext :=
  match c.mode with
  | .record => runActivity A perform past c name args
  | .replay =>
    match c.peekEvent with
    | some (.activityCompleted recorded argsHash resultJson) =>
      if recorded ≠ name ∨ argsHash ≠ A.signatureHash name args then
        (.error ("workflow non-determinism: expected activity '" ++ recorded ++ "' at seq " ++
          toString c.cursor ++ ", got '" ++ name ++ "'"), c)
      else (.value (A.fromJson resultJson), c.consume)
    | some _ =>
      (.error ("workflow non-determinism: expected activity '" ++ name ++ "' at seq " ++
        toString c.cursor ++ ", got a non-activity event"), c)
    | none => runActivity A perform past { c with mode := .record } name args

def workflowSeam (past : List (Answer V)) (c : DeterminismContext) :
    WorkflowOp V → Answer V × DeterminismContext
  | .seam op => seamCall c op
  | .activity name args => ctxCallActivity A perform past c name args

def workflow : Server DeterminismContext (WorkflowOp V) (Answer V) := fun past c op =>
  some (workflowSeam A perform past c op)

def SeamOp.draws : SeamOp → Bool
  | random => true
  | bytes n => n ≠ 0
  | _ => false

def Run.draws (c : DeterminismContext) : Run V → Bool
  | done _ => false
  | seam op next =>
    let (answer, c) := seamCall c op
    op.draws || (next answer).draws c
  | call name args activity next =>
    let (outcome, c') := activity.record A c
    let (answer, c') := completeActivity A c' name args outcome
    activity.draws c || (next answer).draws c'

/-- The turn takes something from the generator, by itself or in its activity. -/
def drawsIn (t : Turn DeterminismContext (WorkflowOp V) (Answer V)) : Bool :=
  match t.query with
  | .seam op => op.draws
  | .activity name args => (perform t.past name args).draws A t.before

/-- The log can stand in for the operation: a timer's wake time alone tells how far the clocks
went, and an activity asked the context for nothing and completed with a result that its text
gives back. -/
def Reproducible (t : Turn DeterminismContext (WorkflowOp V) (Answer V)) : Prop :=
  match t.query with
  | .seam (.sleep ms) =>
    t.before.clock.setNow (t.before.clock.advance ms).nowMs = t.before.clock.advance ms
  | .activity name args =>
    ∃ v, perform t.past name args = .done (.ok v) ∧ A.isSerializable v = true ∧
      A.fromJson (A.toJson v) = v
  | _ => True

def Live (c : DeterminismContext) : Prop :=
  c.mode = .record ∨ c.mode = .replay ∧ c.strict = false ∧ c.peekEvent = none

structure Effect (α : Type u) where
  answer : α
  clock : VirtualClock
  rng : SeededRng
  events : List DetEvent

def SeamOp.live (clock : VirtualClock) (rng : SeededRng) : SeamOp → Effect (Answer V)
  | .clock => ⟨.float clock.nowMs, clock, rng, [.clockRead clock.nowMs]⟩
  | .monotonic => ⟨.float clock.monotonicMs, clock, rng, [.monotonicRead clock.monotonicMs]⟩
  | .random =>
    let (v, rng) := rng.nextF64
    ⟨.float v, clock, rng, [.randomRead v]⟩
  | .bytes n =>
    let (b, rng) := rng.fillBytes n
    ⟨.bytes b, clock, rng, [.bytesRead b]⟩
  | .sleep ms =>
    let clock := clock.advance ms
    ⟨.unit, clock, rng, [.timerSet clock.nowMs]⟩

def Effect.complete (name : String) (args : List V) (e : Effect (Except String V)) :
    Effect (Answer V) :=
  match e.answer with
  | .error msg => { e with answer := .error msg }
  | .ok v =>
    if A.isSerializable v then
      { e with
        answer := .value v
        events := e.events ++ [.activityCompleted name (A.signatureHash name args) (A.toJson v)] }
    else
      { e with
        answer := .error ("workflow: activity result is not serializable (return data, not a " ++
          "native handle/function/class)") }

def Effect.andThen {α β : Type u} (e : Effect α) (e' : Effect β) : Effect β :=
  { e' with events := e.events ++ e'.events }

def Run.live (clock : VirtualClock) (rng : SeededRng) : Run V → Effect (Except String V)
  | done outcome => ⟨outcome, clock, rng, []⟩
  | seam op next =>
    let e := op.live clock rng
    e.andThen ((next e.answer).live e.clock e.rng)
  | call name args activity next =>
    let e := (activity.live clock rng).complete A name args
    e.andThen ((next e.answer).live e.clock e.rng)

def live (past : List (Answer V)) (clock : VirtualClock) (rng : SeededRng) :
    WorkflowOp V → Effect (Answer V)
  | .seam op => op.live clock rng
  | .activity name args => ((perform past name args).live A clock rng).complete A name args

structure Advances {α : Type u} (log : List DetEvent) (r : α × DeterminismContext)
    (e : Effect α) : Prop where
  answer : r.1 = e.answer
  mode : r.2.mode = .record
  clock : r.2.clock = e.clock
  rng : r.2.rng = e.rng
  events : r.2.events = log ++ e.events

theorem nextEvent_none {c : DeterminismContext} (h : c.peekEvent = none) :
    c.nextEvent = (none, c) := by
  rw [peekEvent] at h
  rw [nextEvent, h]

theorem nextEvent_some {c : DeterminismContext} (h : c.peekEvent = some ev) :
    c.nextEvent = (some ev, c.consume) := by
  rw [peekEvent] at h
  rw [nextEvent, h]
  rfl

theorem seamCall_live (h : Live c) (op : SeamOp) :
    Advances c.events (seamCall c op : Answer V × DeterminismContext)
      (op.live c.clock c.rng) := by
  rcases h with hm | ⟨hm, hs, hp⟩
  · cases op with
    | clock =>
      simp only [seamCall, clockNowMs, hm]
      exact ⟨rfl, hm, rfl, rfl, rfl⟩
    | monotonic =>
      simp only [seamCall, clockMonotonicMs, hm]
      exact ⟨rfl, hm, rfl, rfl, rfl⟩
    | random =>
      simp only [seamCall, nextRandomF64, hm]
      exact ⟨rfl, hm, rfl, rfl, rfl⟩
    | bytes n =>
      simp only [seamCall, nextSeededBytes, hm]
      exact ⟨rfl, hm, rfl, rfl, rfl⟩
    | sleep ms =>
      simp only [seamCall, DeterminismContext.sleep, hm]
      exact ⟨rfl, hm, rfl, rfl, rfl⟩
  · have hn := nextEvent_none hp
    cases op with
    | clock =>
      simp only [seamCall, clockNowMs, hm, hs, hn]
      exact ⟨rfl, rfl, rfl, rfl, rfl⟩
    | monotonic =>
      simp only [seamCall, clockMonotonicMs, hm, hs, hn]
      exact ⟨rfl, rfl, rfl, rfl, rfl⟩
    | random =>
      simp only [seamCall, nextRandomF64, hm, hs, hn]
      exact ⟨rfl, rfl, rfl, rfl, rfl⟩
    | bytes n =>
      simp only [seamCall, nextSeededBytes, hm, hs, hn]
      exact ⟨rfl, rfl, rfl, rfl, rfl⟩
    | sleep ms =>
      simp only [seamCall, DeterminismContext.sleep, hm, hs, hp, Bool.false_eq_true, and_false,
        if_false]
      exact ⟨rfl, rfl, rfl, rfl, rfl⟩

theorem complete_live (h : Advances log (outcome, c) e) (name : String) (args : List V) :
    Advances log (completeActivity A c name args outcome) (e.complete A name args) := by
  obtain ⟨answer, clock, rng, events⟩ := e
  obtain ⟨rfl, hmode, hclock, hrng, hevents⟩ := h
  cases outcome with
  | error msg => exact ⟨rfl, hmode, hclock, hrng, hevents⟩
  | ok v =>
    simp only [completeActivity, Effect.complete]
    split
    · refine ⟨rfl, hmode, hclock, hrng, ?_⟩
      exact (congrArg (· ++ [_]) hevents).trans (List.append_assoc ..)
    · exact ⟨rfl, hmode, hclock, hrng, hevents⟩

theorem Advances.andThen {α β : Type u} {c : DeterminismContext} {a : α} {e : Effect α}
    {r : β × DeterminismContext} {e' : Effect β} (h : Advances log (a, c) e)
    (h' : Advances c.events r e') : Advances log r (e.andThen e') := by
  refine ⟨h'.answer, h'.mode, h'.clock, h'.rng, ?_⟩
  rw [h'.events, show c.events = log ++ e.events from h.events]
  exact List.append_assoc ..

theorem record_live (run : Run V) (hm : c.mode = .record) :
    Advances c.events (run.record A c) (run.live A c.clock c.rng) := by
  induction run generalizing c with
  | done outcome => exact ⟨rfl, hm, rfl, rfl, (List.append_nil _).symm⟩
  | seam op next ih =>
    have h := seamCall_live (V := V) (.inl hm) op
    have hrest := ih (seamCall c op).1 h.mode
    rw [h.clock, h.rng] at hrest
    simp only [Run.record, Run.live, ← h.answer]
    exact h.andThen hrest
  | call name args activity next ihActivity ih =>
    have h := complete_live A (ihActivity hm) name args
    have hrest := ih (completeActivity A (activity.record A c).2 name args
      (activity.record A c).1).1 h.mode
    rw [h.clock, h.rng] at hrest
    simp only [Run.record, Run.live, ← h.answer]
    exact h.andThen hrest

theorem seam_live (h : Live c) (past : List (Answer V)) (op : WorkflowOp V) :
    Advances c.events (workflowSeam A perform past c op)
      (live A perform past c.clock c.rng op) := by
  cases op with
  | seam op => exact seamCall_live h op
  | activity name args =>
    rcases h with hm | ⟨hm, hs, hp⟩
    · simp only [workflowSeam, ctxCallActivity, hm]
      exact complete_live A (record_live A (perform past name args) hm) name args
    · simp only [workflowSeam, ctxCallActivity, hm, hp]
      exact complete_live A (record_live A (c := { c with mode := .record })
        (perform past name args) rfl) name args

structure FromLog (stream : List DetEvent) (i : Nat) (c : DeterminismContext) : Prop where
  mode : c.mode = .replay
  strict : c.strict = false
  cursor : c.cursor = i
  events : c.events = stream

theorem FromLog.peekEvent (h : FromLog stream i c) : c.peekEvent = stream[i]? := by
  rw [DeterminismContext.peekEvent, h.cursor, h.events]

theorem seam_logged (h : FromLog stream i c) (past : List (Answer V)) (op : WorkflowOp V)
    {before : DeterminismContext} (hclock : c.clock = before.clock ∨
      c.clock.monotonicMs = before.clock.monotonicMs ∧ op = .seam .clock)
    (hrep : Reproducible A perform ⟨past, before, op, o, after⟩)
    (hev : (live A perform past before.clock before.rng op).events = [ev])
    (hat : stream[i]? = some ev) :
    (workflowSeam A perform past c op).1 =
        (live A perform past before.clock before.rng op).answer ∧
      FromLog stream (i + 1) (workflowSeam A perform past c op).2 ∧
      (workflowSeam A perform past c op).2.clock =
        (live A perform past before.clock before.rng op).clock ∧
      (workflowSeam A perform past c op).2.rng = c.rng := by
  have hpeek := h.peekEvent.trans hat
  have hnext := nextEvent_some hpeek
  have hlog : FromLog stream (i + 1) c.consume :=
    ⟨h.mode, h.strict, congrArg (· + 1) h.cursor, h.events⟩
  cases op with
  | seam op =>
    cases op with
    | clock =>
      obtain rfl : DetEvent.clockRead before.clock.nowMs = ev := List.head_eq_of_cons_eq hev
      simp only [workflowSeam, seamCall, clockNowMs, h.mode, h.strict, hnext]
      have hmono : c.clock.monotonicMs = before.clock.monotonicMs :=
        hclock.elim (congrArg VirtualClock.monotonicMs) And.left
      exact ⟨rfl, ⟨h.mode, h.strict, hlog.cursor, h.events⟩, VirtualClock.ext rfl hmono, rfl⟩
    | monotonic =>
      have heq := hclock.resolve_right (by simp)
      obtain rfl : DetEvent.monotonicRead before.clock.monotonicMs = ev :=
        List.head_eq_of_cons_eq hev
      simp only [workflowSeam, seamCall, clockMonotonicMs, h.mode, h.strict, hnext]
      have hnow : c.clock.nowMs = before.clock.nowMs := congrArg VirtualClock.nowMs heq
      exact ⟨rfl, ⟨h.mode, h.strict, hlog.cursor, h.events⟩, VirtualClock.ext hnow rfl, rfl⟩
    | random =>
      have heq := hclock.resolve_right (by simp)
      simp only [live, SeamOp.live] at hev ⊢
      obtain rfl := List.head_eq_of_cons_eq hev
      simp only [workflowSeam, seamCall, nextRandomF64, h.mode, h.strict, hnext]
      exact ⟨rfl, hlog, heq, rfl⟩
    | bytes n =>
      have heq := hclock.resolve_right (by simp)
      simp only [live, SeamOp.live] at hev ⊢
      obtain rfl := List.head_eq_of_cons_eq hev
      simp only [workflowSeam, seamCall, nextSeededBytes, h.mode, h.strict, hnext,
        before.rng.length_fillBytes n, Bool.false_eq_true, if_false, if_true]
      exact ⟨rfl, hlog, heq, rfl⟩
    | sleep ms =>
      have heq := hclock.resolve_right (by simp)
      obtain rfl : DetEvent.timerSet (before.clock.advance ms).nowMs = ev :=
        List.head_eq_of_cons_eq hev
      simp only [workflowSeam, seamCall, DeterminismContext.sleep, h.mode, hpeek]
      refine ⟨rfl, ⟨h.mode, h.strict, hlog.cursor, h.events⟩, ?_, rfl⟩
      rw [heq]
      exact hrep
  | activity name args =>
    have heq := hclock.resolve_right (by simp)
    obtain ⟨v, hv, hser, hjson⟩ := hrep
    have hlive : live A perform past before.clock before.rng (.activity name args) =
        ⟨.value v, before.clock, before.rng,
          [.activityCompleted name (A.signatureHash name args) (A.toJson v)]⟩ := by
      simp only [live, hv, Run.live, Effect.complete, hser, if_true, List.nil_append]
    rw [hlive] at hev ⊢
    obtain rfl := List.head_eq_of_cons_eq hev
    simp only [workflowSeam, ctxCallActivity, h.mode, hpeek, ne_eq, not_true, or_self, if_false,
      hjson]
    exact ⟨trivial, hlog, heq, rfl⟩

theorem live_event (h : Reproducible A perform ⟨past, before, op, o, after⟩) :
    ∃ ev, (live A perform past before.clock before.rng op).events = [ev] := by
  cases op with
  | activity name args =>
    obtain ⟨v, hv, hser, -⟩ := h
    exact ⟨_, by simp only [live, hv, Run.live, Effect.complete, hser, if_true]; rfl⟩
  | seam op => cases op <;> exact ⟨_, rfl⟩

structure Quiet {α : Type u} (r r' : SeededRng) (e e' : Effect α) : Prop where
  answer : e.answer = e'.answer
  clock : e.clock = e'.clock
  left : e.rng = r
  right : e'.rng = r'

theorem Quiet.complete {r r' : SeededRng} {e e' : Effect (Except String V)} (h : Quiet r r' e e')
    (name : String) (args : List V) :
    Quiet r r' (e.complete A name args) (e'.complete A name args) := by
  obtain ⟨outcome, clock, rng, events⟩ := e
  obtain ⟨outcome', clock', rng', events'⟩ := e'
  obtain ⟨rfl, rfl, rfl, rfl⟩ := h
  cases outcome with
  | error msg => exact ⟨rfl, rfl, rfl, rfl⟩
  | ok v =>
    simp only [Effect.complete]
    split <;> exact ⟨rfl, rfl, rfl, rfl⟩

theorem seamOp_quiet {op : SeamOp} (h : op.draws = false) (clock : VirtualClock)
    (r r' : SeededRng) :
    Quiet (α := Answer V) r r' (op.live clock r) (op.live clock r') := by
  cases op with
  | random => cases h
  | bytes n =>
    obtain rfl : n = 0 := by simpa [SeamOp.draws] using h
    exact ⟨rfl, rfl, rfl, rfl⟩
  | clock | monotonic | sleep => exact ⟨rfl, rfl, rfl, rfl⟩

theorem run_quiet (run : Run V) (hm : c.mode = .record) (h : run.draws A c = false)
    (r : SeededRng) : Quiet c.rng r (run.live A c.clock c.rng) (run.live A c.clock r) := by
  induction run generalizing c with
  | done outcome => exact ⟨rfl, rfl, rfl, rfl⟩
  | seam op next ih =>
    simp only [Run.draws, Bool.or_eq_false_iff] at h
    have hstep := seamCall_live (V := V) (.inl hm) op
    have hquiet := seamOp_quiet (V := V) h.1 c.clock c.rng r
    have hrest := ih (seamCall c op).1 hstep.mode h.2
    rw [hstep.rng, hquiet.left, hstep.clock, hstep.answer] at hrest
    simp only [Run.live]
    rw [← hquiet.answer, ← hquiet.clock, hquiet.left, hquiet.right]
    exact ⟨hrest.answer, hrest.clock, hrest.left, hrest.right⟩
  | call name args activity next ihActivity ih =>
    simp only [Run.draws, Bool.or_eq_false_iff] at h
    have hstep := complete_live A (record_live A activity hm) name args
    have hquiet := (ihActivity hm h.1).complete A name args
    have hrest := ih _ hstep.mode h.2
    rw [hstep.rng, hquiet.left, hstep.clock, hstep.answer] at hrest
    simp only [Run.live]
    rw [← hquiet.answer, ← hquiet.clock, hquiet.left, hquiet.right]
    exact ⟨hrest.answer, hrest.clock, hrest.left, hrest.right⟩

theorem live_quiet (hm : c.mode = .record)
    (h : drawsIn A perform ⟨past, c, op, o, after⟩ = false) (r : SeededRng) :
    Quiet c.rng r (live A perform past c.clock c.rng op) (live A perform past c.clock r op) := by
  cases op with
  | seam op => exact seamOp_quiet h c.clock c.rng r
  | activity name args => exact (run_quiet A (perform past name args) hm h r).complete A name args

variable {body : Client (WorkflowOp V) (Answer V)} {stream : List DetEvent} {k : Nat} {sync : Bool}
  {seed : UInt64} {start start' : Datum}

structure Resumed (body : Client (WorkflowOp V) (Answer V)) (stream : List DetEvent) (k : Nat)
    (sync : Bool) (past : List (Answer V)) (c r : DeterminismContext) : Prop where
  recording : c.mode = .record
  logged : past.length < k → FromLog (stream.take k) past.length r ∧ c.events.length = past.length
  live : k ≤ past.length → Live r
  clock : r.clock = c.clock ∨ past = [] ∧ 0 < k ∧ body [] = some (.seam .clock) ∧
    r.clock.monotonicMs = c.clock.monotonicMs
  rng : sync = true → r.rng = c.rng

structure Replayable (stream : List DetEvent) (k : Nat) (sync : Bool)
    (t : Turn DeterminismContext (WorkflowOp V) (Answer V)) : Prop where
  kept : t.after.events <+: stream
  reproducible : t.past.length < k → Reproducible A perform t
  quiet : (if sync then t.past.length < k else k ≤ t.past.length) → drawsIn A perform t = false

theorem resumed_logged (h : Resumed body stream k sync past c r) (hq : body past = some op)
    (hk : past.length < k)
    (hp : Replayable A perform stream k sync ⟨past, c, op, (workflowSeam A perform past c op).1,
      (workflowSeam A perform past c op).2⟩) :
    (workflowSeam A perform past r op).1 = (workflowSeam A perform past c op).1 ∧
      Resumed body stream k sync (past ++ [(workflowSeam A perform past c op).1])
        (workflowSeam A perform past c op).2 (workflowSeam A perform past r op).2 := by
  obtain ⟨hlog, hlen⟩ := h.logged hk
  have hadv := seam_live A perform (.inl h.recording) past op
  have hrep := hp.reproducible hk
  obtain ⟨ev, hev⟩ := live_event A perform hrep
  have hevents : (workflowSeam A perform past c op).2.events = c.events ++ [ev] := by
    rw [hadv.events, hev]
  have hstream : (stream.take k)[past.length]? = some ev := by
    obtain ⟨rest, hrest⟩ := hp.kept
    rw [List.getElem?_take_of_lt hk, ← hrest, hevents, ← hlen]
    simp
  have hclock : r.clock = c.clock ∨
      r.clock.monotonicMs = c.clock.monotonicMs ∧ op = .seam .clock := by
    refine h.clock.imp id ?_
    rintro ⟨rfl, -, hb, hmono⟩
    exact ⟨hmono, Option.some.inj (hq.symm.trans hb)⟩
  obtain ⟨ho', hlog', hclock', hrng'⟩ :=
    seam_logged A perform hlog past op hclock hrep hev hstream
  have hlen' : (past ++ [(workflowSeam A perform past c op).1]).length = past.length + 1 := by simp
  refine ⟨ho'.trans hadv.answer.symm, hadv.mode, ?_, ?_,
    .inl (hclock'.trans hadv.clock.symm), ?_⟩
  · intro _
    rw [hlen']
    exact ⟨hlog', by rw [hevents, List.length_append, hlen, List.length_singleton]⟩
  · intro hle
    refine .inr ⟨hlog'.mode, hlog'.strict, ?_⟩
    rw [hlog'.peekEvent, List.getElem?_eq_none_iff, List.length_take]
    omega
  · intro hsync
    subst hsync
    rw [hrng', hadv.rng, (live_quiet A perform h.recording (hp.quiet hk) c.rng).left]
    exact h.rng rfl

theorem resumed_live (h : Resumed body stream k sync past c r) (hk : k ≤ past.length)
    (hp : Replayable A perform stream k sync ⟨past, c, op, (workflowSeam A perform past c op).1,
      (workflowSeam A perform past c op).2⟩) :
    (workflowSeam A perform past r op).1 = (workflowSeam A perform past c op).1 ∧
      Resumed body stream k sync (past ++ [(workflowSeam A perform past c op).1])
        (workflowSeam A perform past c op).2 (workflowSeam A perform past r op).2 := by
  have hclock : r.clock = c.clock := by
    refine h.clock.resolve_right ?_
    rintro ⟨rfl, hpos, -, -⟩
    exact Nat.not_lt.mpr hk hpos
  have hadv := seam_live A perform (.inl h.recording) past op
  have hadv' := seam_live A perform (h.live hk) past op
  rw [hclock] at hadv'
  have hsame : (live A perform past c.clock r.rng op).answer =
        (live A perform past c.clock c.rng op).answer ∧
      (live A perform past c.clock r.rng op).clock =
        (live A perform past c.clock c.rng op).clock := by
    cases sync with
    | true =>
      rw [h.rng rfl]
      exact ⟨rfl, rfl⟩
    | false =>
      have hquiet := live_quiet A perform h.recording (hp.quiet hk) r.rng
      exact ⟨hquiet.answer.symm, hquiet.clock.symm⟩
  refine ⟨hadv'.answer.trans (hsame.1.trans hadv.answer.symm), hadv.mode, ?_,
    fun _ => .inl hadv'.mode, ?_, ?_⟩
  · intro hlt
    rw [List.length_append, List.length_singleton] at hlt
    omega
  · exact .inl (hadv'.clock.trans (hsame.2.trans hadv.clock.symm))
  · intro hsync
    rw [hadv'.rng, hadv.rng, h.rng hsync]

theorem workflow_eq (h : workflow A perform past c op = some (o, c')) :
    workflowSeam A perform past c op = (o, c') :=
  Option.some.inj h

theorem workflow_grows {c : DeterminismContext} (h : c.mode = .record) (n : Nat) :
    ∀ t ∈ (converse (workflow A perform) body n past c).1,
      t.after.events <+: (converse (workflow A perform) body n past c).2.events := by
  refine (converse_grows (fun a b : DeterminismContext => a.events <+: b.events)
    (I := fun c : DeterminismContext => c.mode = .record) (fun _ => List.prefix_rfl)
      (fun _ _ _ => List.IsPrefix.trans) ?_ h).2
  intro past c op o c' hc hstep
  have hadv := seam_live A perform (.inl hc) past op
  rw [workflow_eq A perform hstep] at hadv
  exact ⟨⟨_, hadv.events.symm⟩, hadv.mode⟩

theorem resumed_start (hstart : start' = start ∨ 0 < k ∧ body [] = some (.seam .clock)) :
    Resumed body stream k sync [] (.record seed start) (.replay seed start' (stream.take k)) := by
  refine ⟨rfl, fun _ => ⟨⟨rfl, rfl, rfl, rfl⟩, rfl⟩, fun hk => .inr ⟨rfl, rfl, ?_⟩, ?_,
    fun _ => rfl⟩
  · obtain rfl := Nat.le_zero.mp hk
    rfl
  · rcases hstart with rfl | ⟨hk, hb⟩
    · exact .inl rfl
    · exact .inr ⟨rfl, hk, hb, rfl⟩

theorem resume_answers (sync : Bool)
    (hstart : start' = start ∨ 0 < k ∧ body [] = some (.seam .clock))
    (hp : ∀ t ∈ (converse (workflow A perform) body n [] (.record seed start)).1,
      Replayable A perform (converse (workflow A perform) body n [] (.record seed start)).2.events k
        sync t) :
    answers (workflow A perform) body n [] (.replay seed start'
        ((converse (workflow A perform) body n [] (.record seed start)).2.events.take k)) =
      answers (workflow A perform) body n [] (.record seed start) := by
  refine (converse_follow (R := Resumed body _ k sync) ?_ ?_ (resumed_start hstart) hp).1
  · intro past c op o c' r h hq hp hstep
    have hseam := workflow_eq A perform hstep
    obtain rfl : (workflowSeam A perform past c op).1 = o := by rw [hseam]
    obtain rfl : (workflowSeam A perform past c op).2 = c' := by rw [hseam]
    obtain ⟨ho, hr⟩ := (Nat.lt_or_ge past.length k).elim
      (fun hk => resumed_logged A perform h hq hk hp) (fun hk => resumed_live A perform h hk hp)
    exact ⟨(workflowSeam A perform past r op).2, congrArg some (Prod.ext ho rfl), hr⟩
  · rintro past c op r h ⟨⟩

/-- A body resumed after a crash answers as the uninterrupted run, if the log reproduces what it
recorded and the draws are all on one side of the crash. -/
theorem resume_continues (body : Client (WorkflowOp V) (Answer V)) (seed : UInt64)
    (start start' : Datum) (n k : Nat)
    (hstart : start' = start ∨ 0 < k ∧ body [] = some (.seam .clock))
    (hlog : ∀ t ∈ (converse (workflow A perform) body n [] (.record seed start)).1,
      t.past.length < k → Reproducible A perform t)
    (hdraws : (∀ t ∈ (converse (workflow A perform) body n [] (.record seed start)).1,
        t.past.length < k → drawsIn A perform t = false) ∨
      ∀ t ∈ (converse (workflow A perform) body n [] (.record seed start)).1,
        k ≤ t.past.length → drawsIn A perform t = false) :
    answers (workflow A perform) body n [] (.replay seed start'
        ((converse (workflow A perform) body n [] (.record seed start)).2.events.take k)) =
      answers (workflow A perform) body n [] (.record seed start) := by
  have hkept := @workflow_grows _ A perform body [] (.record seed start) rfl n
  rcases hdraws with hearly | hlate
  · exact resume_answers A perform true hstart
      fun t ht => ⟨hkept t ht, hlog t ht, hearly t ht⟩
  · exact resume_answers A perform false hstart
      fun t ht => ⟨hkept t ht, hlog t ht, hlate t ht⟩

end Seam

/-- Results that are their own text. -/
def plainText : Persistence String where
  signatureHash _ _ := 0
  isSerializable _ := true
  toJson := id
  fromJson := id

/-- A clock read, then an activity that draws and a draw of the body, cut before the draws. -/
theorem resume_continues_draws :
    let body : Client (WorkflowOp String) (Answer String) := fun past =>
      [.seam .clock, .activity "token" [], .seam (.bytes 16)][past.length]?
    let server := workflow plainText fun _ _ _ => .seam .random fun _ => .done (.ok "")
    answers server body 3 [] (.replay 5 (.ofInt 90) ((converse server body 3 []
        (.record 5 (.ofInt 20))).2.events.take 1)) =
      answers server body 3 [] (.record 5 (.ofInt 20)) :=
  have hclock {t : Turn DeterminismContext (WorkflowOp String) (Answer String)}
      (hq : [.seam .clock, .activity "token" [], .seam (.bytes 16)][t.past.length]? =
        some t.query) (hk : t.past.length < 1) : t.query = .seam .clock := by
    rw [Nat.lt_one_iff.mp hk] at hq
    exact (Option.some.inj hq).symm
  resume_continues plainText _ _ 5 _ _ 3 1 (.inr ⟨by decide, rfl⟩)
    (fun t ht hk => by simp [Reproducible, hclock (turn_query ht) hk])
    (.inl fun t ht hk => by simp [drawsIn, hclock (turn_query ht) hk, SeamOp.draws])

/-- Resumed after its first draw, a body draws the same number again; and the draw of an activity
stands where the resumed body looks for its completion. -/
theorem resume_repeats :
    (let body : Client (WorkflowOp String) (Answer String) := fun past =>
        [.seam .random, .seam .random][past.length]?
      let server := workflow plainText fun _ _ _ => .done (.ok "")
      let recorded := converse server body 2 [] (.record 5 (.ofInt 20))
      let resumed := answers server body 2 [] (.replay 5 (.ofInt 20) (recorded.2.events.take 1))
      resumed[0]? = resumed[1]? ∧ resumed ≠ recorded.1.map Turn.answer) ∧
    let body : Client (WorkflowOp String) (Answer String) := fun past =>
      [.activity "token" []][past.length]?
    let server := workflow plainText fun _ _ _ => .seam .random fun _ => .done (.ok "")
    let recorded := converse server body 1 [] (.record 5 (.ofInt 20))
    recorded.1.map Turn.answer = [.value ""] ∧
      answers server body 1 [] (.replay 5 (.ofInt 20) recorded.2.events) =
        [.error ("workflow non-determinism: expected activity 'token' at seq 0, got a " ++
          "non-activity event")] := by
  decide +kernel

end AScript.Det
