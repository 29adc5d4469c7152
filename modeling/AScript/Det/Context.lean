import AScript.Lib.Rounding

namespace AScript.Det

open AScript.Lib

abbrev Bytes := List UInt8

inductive Origin
  | workflow
  | cliTrace
  deriving DecidableEq

inductive Mode
  | record
  | replay
  deriving DecidableEq

inductive Divergence
  | exhausted (index : Nat) (wanted : String)
  | mismatch (index : Nat) (expected got : String)
  deriving DecidableEq

def Divergence.index : Divergence → Nat
  | exhausted i _ => i
  | mismatch i _ _ => i

/-- The text `check_divergence` raises. -/
def Divergence.message : Divergence → String
  | mismatch i expected got =>
    "replay divergence at event " ++ toString i ++ ": expected " ++ expected ++ ", got " ++ got ++
      " — the program's effect order differs from the recording (re-record, or check for " ++
      "unpinned nondeterminism)"
  | exhausted i wanted =>
    "replay divergence at event " ++ toString i ++ ": recorded stream exhausted (wanted " ++
      wanted ++ ") — the program performed more effects than were recorded (re-record)"

inductive TraceOutcome
  | value (bytes : Bytes)
  | panic (message : String)
  | propagate (bytes : Bytes)
  | handle (kindTag : UInt8) (vid : UInt32) (fields : Bytes)
  deriving DecidableEq

inductive FfiRet
  | int (i : I64)
  | float (d : Datum)
  | void
  deriving DecidableEq

inductive BoundaryOutcome
  | bytes (b : Bytes)
  | done
  | panic (message : String)
  deriving DecidableEq

inductive DetEvent
  | clockRead (value : Datum)
  | randomRead (value : Datum)
  | bytesRead (bytes : Bytes)
  | monotonicRead (value : Datum)
  | timerSet (wake : Datum)
  | activityCompleted (name : String) (argsHash : UInt64) (resultJson : String)
  | actorCall (method : String) (result : Bytes) (panic : Option String)
  | ffiCall (ret : FfiRet) (outParams : List (Nat × Bytes))
  | generatorYield (value : Option Bytes) (panic : Option String)
  | stdlibCall (mod func : String) (argsHash : UInt64) (outcome : TraceOutcome)
  | nativeCall (vid : UInt32) (method : String) (argsHash : UInt64) (outcome : TraceOutcome)

def DetEvent.kindName : DetEvent → String
  | clockRead _ => "ClockRead"
  | randomRead _ => "RandomRead"
  | bytesRead _ => "BytesRead"
  | monotonicRead _ => "MonotonicRead"
  | timerSet _ => "TimerSet"
  | activityCompleted _ _ _ => "ActivityCompleted"
  | actorCall _ _ _ => "ActorCall"
  | ffiCall _ _ => "FfiCall"
  | generatorYield _ _ => "GeneratorYield"
  | stdlibCall _ _ _ _ => "StdlibCall"
  | nativeCall _ _ _ _ => "NativeCall"

@[ext] structure VirtualClock where
  nowMs : Datum
  monotonicMs : Datum
  deriving DecidableEq

namespace VirtualClock

def new (startMs : Datum) : VirtualClock := ⟨startMs, .fin 0⟩

def advance (c : VirtualClock) (deltaMs : Datum) : VirtualClock :=
  if Datum.lt (.fin 0) deltaMs then ⟨c.nowMs.add deltaMs, c.monotonicMs.add deltaMs⟩ else c

def setNow (c : VirtualClock) (wake : Datum) : VirtualClock :=
  ⟨wake, if c.nowMs.lt wake then c.monotonicMs.add (wake.sub c.nowMs) else c.monotonicMs⟩

end VirtualClock

structure SeededRng where
  state : UInt64
  deriving DecidableEq

namespace SeededRng

def new (seed : UInt64) : SeededRng := ⟨max seed 1⟩

def nextU64 (r : SeededRng) : UInt64 × SeededRng :=
  let x := r.state
  let x := x ^^^ (x >>> 12)
  let x := x ^^^ (x <<< 25)
  let x := x ^^^ (x >>> 27)
  (x * 0x2545F4914F6CDD1D, ⟨x⟩)

def nextF64 (r : SeededRng) : Datum × SeededRng :=
  let (u, r) := r.nextU64
  ((Datum.ofInt (u >>> 11).toNat).div (.ofInt (2 ^ 53)), r)

def leBytes (u : UInt64) : Bytes := (List.range 8).map fun i => (u >>> (8 * i.toUInt64)).toUInt8

def words (r : SeededRng) : Nat → Bytes × SeededRng
  | 0 => ([], r)
  | k + 1 =>
    let (u, r) := r.nextU64
    let rest := r.words k
    (leBytes u ++ rest.1, rest.2)

/-- `fill_bytes` on a buffer of a given length: whole words, the last one cut off. -/
def fillBytes (r : SeededRng) (n : Nat) : Bytes × SeededRng :=
  let (b, r) := r.words ((n + 7) / 8)
  (b.take n, r)

theorem length_words (r : SeededRng) (k : Nat) : (r.words k).1.length = 8 * k := by
  induction k generalizing r with
  | zero => rfl
  | succ k ih =>
    have h8 (u : UInt64) : (leBytes u).length = 8 := rfl
    rw [words, List.length_append, ih, h8]
    omega

theorem length_fillBytes (r : SeededRng) (n : Nat) : (r.fillBytes n).1.length = n := by
  have h := r.length_words ((n + 7) / 8)
  rw [fillBytes, List.length_take, h]
  omega

end SeededRng

structure DeterminismContext where
  mode : Mode
  origin : Origin
  strict : Bool
  pendingDivergence : Option Divergence
  clock : VirtualClock
  rng : SeededRng
  seed : UInt64
  cursor : Nat
  events : List DetEvent

namespace DeterminismContext

def record (seed : UInt64) (startMs : Datum) : DeterminismContext where
  mode := .record
  origin := .workflow
  strict := false
  pendingDivergence := none
  clock := .new startMs
  rng := .new seed
  seed := seed
  cursor := 0
  events := []

def replay (seed : UInt64) (startMs : Datum) (events : List DetEvent) : DeterminismContext :=
  { record seed startMs with mode := .replay, events }

def setDivergence (c : DeterminismContext) (d : Divergence) : DeterminismContext :=
  { c with pendingDivergence := some (c.pendingDivergence.getD d) }

def recordEvent (c : DeterminismContext) (ev : DetEvent) : DeterminismContext :=
  { c with events := c.events ++ [ev] }

def peekEvent (c : DeterminismContext) : Option DetEvent := c.events[c.cursor]?

def nextEvent (c : DeterminismContext) : Option DetEvent × DeterminismContext :=
  match c.events[c.cursor]? with
  | some ev => (some ev, { c with cursor := c.cursor + 1 })
  | none => (none, c)

def consume (c : DeterminismContext) : DeterminismContext := { c with cursor := c.cursor + 1 }

def diverge (c : DeterminismContext) (wanted : String) : Option DetEvent → DeterminismContext
  | some other => c.setDivergence (.mismatch c.cursor wanted other.kindName)
  | none => c.setDivergence (.exhausted c.cursor wanted)

def recordClock (c : DeterminismContext) : Datum × DeterminismContext :=
  (c.clock.nowMs, c.recordEvent (.clockRead c.clock.nowMs))

def clockNowMs (c : DeterminismContext) : Datum × DeterminismContext :=
  match c.mode with
  | .record => c.recordClock
  | .replay =>
    if c.strict then
      match c.peekEvent with
      | some (.clockRead v) => (v, { c.consume with clock.nowMs := v })
      | other => (c.clock.nowMs, c.diverge "ClockRead" other)
    else
      match c.nextEvent with
      | (some (.clockRead v), c) => (v, { c with clock.nowMs := v })
      | (some _, c) => (c.clock.nowMs, c)
      | (none, c) => recordClock { c with mode := .record }

def recordMonotonic (c : DeterminismContext) : Datum × DeterminismContext :=
  (c.clock.monotonicMs, c.recordEvent (.monotonicRead c.clock.monotonicMs))

def clockMonotonicMs (c : DeterminismContext) : Datum × DeterminismContext :=
  match c.mode with
  | .record => c.recordMonotonic
  | .replay =>
    if c.strict then
      match c.peekEvent with
      | some (.monotonicRead v) => (v, { c.consume with clock.monotonicMs := v })
      | other => (c.clock.monotonicMs, c.diverge "MonotonicRead" other)
    else
      match c.nextEvent with
      | (some (.monotonicRead v), c) => (v, { c with clock.monotonicMs := v })
      | (some _, c) => (c.clock.nowMs, c)
      | (none, c) => recordMonotonic { c with mode := .record }

def recordRandom (c : DeterminismContext) : Datum × DeterminismContext :=
  let (v, rng) := c.rng.nextF64
  (v, { c with rng }.recordEvent (.randomRead v))

def nextRandomF64 (c : DeterminismContext) : Datum × DeterminismContext :=
  match c.mode with
  | .record => c.recordRandom
  | .replay =>
    if c.strict then
      match c.peekEvent with
      | some (.randomRead v) => (v, c.consume)
      | other => (c.clock.nowMs, c.diverge "RandomRead" other)
    else
      match c.nextEvent with
      | (some (.randomRead v), c) => (v, c)
      | (some _, c) => (c.clock.nowMs, c)
      | (none, c) => recordRandom { c with mode := .record }

def recordBytes (c : DeterminismContext) (n : Nat) : Bytes × DeterminismContext :=
  let (b, rng) := c.rng.fillBytes n
  (b, { c with rng }.recordEvent (.bytesRead b))

def drawBytes (c : DeterminismContext) (n : Nat) : Bytes × DeterminismContext :=
  let (b, rng) := c.rng.fillBytes n
  (b, { c with rng })

def nextSeededBytes (c : DeterminismContext) (n : Nat) : Bytes × DeterminismContext :=
  match c.mode with
  | .record => c.recordBytes n
  | .replay =>
    if c.strict then
      match c.peekEvent with
      | some (.bytesRead b) =>
        if b.length = n then (b, c.consume)
        else (c.diverge "BytesRead" (some (.bytesRead b))).drawBytes n
      | other => (c.diverge "BytesRead" other).drawBytes n
    else
      match c.nextEvent with
      | (some (.bytesRead b), c) => if b.length = n then (b, c) else c.drawBytes n
      | (some _, c) => c.drawBytes n
      | (none, c) => recordBytes { c with mode := .record } n

def recordTimer (c : DeterminismContext) (ms : Datum) : DeterminismContext :=
  let clock := c.clock.advance ms
  { c with clock }.recordEvent (.timerSet clock.nowMs)

/-- `time.sleep` in deterministic mode, and `ctx.sleep` of a workflow. -/
def sleep (c : DeterminismContext) (ms : Datum) : DeterminismContext :=
  match c.mode with
  | .record => c.recordTimer ms
  | .replay =>
    match c.peekEvent with
    | some (.timerSet wake) => { c.consume with clock := c.clock.setNow wake }
    | other =>
      if c.origin = .cliTrace ∧ c.strict = true then c.diverge "TimerSet" other
      else recordTimer { c with mode := .record } ms

def recordActorCall (c : DeterminismContext) (method : String) :
    BoundaryOutcome → DeterminismContext
  | .bytes b => c.recordEvent (.actorCall method b none)
  | .done => c.recordEvent (.actorCall method [] none)
  | .panic msg => c.recordEvent (.actorCall method [] (some msg))

def replayActorCall (c : DeterminismContext) (method : String) :
    Option BoundaryOutcome × DeterminismContext :=
  match c.peekEvent with
  | some (.actorCall recorded result panic) =>
    if recorded ≠ method then (none, c)
    else (some (panic.elim (.bytes result) .panic), c.consume)
  | _ => (none, c)

def recordGeneratorYield (c : DeterminismContext) : BoundaryOutcome → DeterminismContext
  | .bytes b => c.recordEvent (.generatorYield (some b) none)
  | .done => c.recordEvent (.generatorYield none none)
  | .panic msg => c.recordEvent (.generatorYield none (some msg))

def replayGeneratorYield (c : DeterminismContext) :
    Option BoundaryOutcome × DeterminismContext :=
  match c.peekEvent with
  | some (.generatorYield _ (some msg)) => (some (.panic msg), c.consume)
  | some (.generatorYield (some b) none) => (some (.bytes b), c.consume)
  | some (.generatorYield none none) => (some .done, c.consume)
  | _ => (none, c)

def recordFfiCall (c : DeterminismContext) (ret : FfiRet) (outParams : List (Nat × Bytes)) :
    DeterminismContext :=
  c.recordEvent (.ffiCall ret outParams)

def replayFfiCall (c : DeterminismContext) :
    Option (FfiRet × List (Nat × Bytes)) × DeterminismContext :=
  match c.peekEvent with
  | some (.ffiCall ret outParams) => (some (ret, outParams), c.consume)
  | _ => (none, c)

def recordStdlibCall (c : DeterminismContext) (mod func : String) (argsHash : UInt64)
    (outcome : TraceOutcome) : DeterminismContext :=
  c.recordEvent (.stdlibCall mod func argsHash outcome)

def replayStdlibCall (c : DeterminismContext) (mod func : String) (argsHash : UInt64) :
    Option TraceOutcome × DeterminismContext :=
  match c.peekEvent with
  | some (.stdlibCall rmod rfunc rhash outcome) =>
    if rmod = mod ∧ rfunc = func ∧ rhash = argsHash then (some outcome, c.consume)
    else if c.strict then
      (none, c.diverge "StdlibCall" (some (.stdlibCall rmod rfunc rhash outcome)))
    else (none, c)
  | other => if c.strict then (none, c.diverge "StdlibCall" other) else (none, c)

def recordNativeCall (c : DeterminismContext) (vid : UInt32) (method : String)
    (argsHash : UInt64) (outcome : TraceOutcome) : DeterminismContext :=
  c.recordEvent (.nativeCall vid method argsHash outcome)

def replayNativeCall (c : DeterminismContext) (vid : UInt32) (method : String)
    (argsHash : UInt64) : Option TraceOutcome × DeterminismContext :=
  match c.peekEvent with
  | some (.nativeCall rvid rmethod rhash outcome) =>
    if rvid = vid ∧ rmethod = method ∧ rhash = argsHash then (some outcome, c.consume)
    else if c.strict then
      (none, c.diverge "NativeCall" (some (.nativeCall rvid rmethod rhash outcome)))
    else (none, c)
  | other => if c.strict then (none, c.diverge "NativeCall" other) else (none, c)

end DeterminismContext

end AScript.Det
