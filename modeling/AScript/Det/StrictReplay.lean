import AScript.Det.Context
import AScript.Lib.Dialogue

namespace AScript.Det

open AScript.Lib

/-- The operations of a traced program, with the signatures replay compares. -/
inductive TraceOp
  | clock
  | monotonic
  | random
  | bytes (n : Nat)
  | sleep (ms : Datum)
  | actor (method : String)
  | generator
  | ffi
  | stdlib (mod func : String) (argsHash : UInt64)
  | native (vid : UInt32) (method : String) (argsHash : UInt64)

/-- What a program gets back, `missing` standing for a traced call with no outcome. -/
inductive Outcome
  | float (d : Datum)
  | bytes (b : Bytes)
  | unit
  | boundary (o : BoundaryOutcome)
  | ffi (ret : FfiRet) (outParams : List (Nat × Bytes))
  | trace (o : TraceOutcome)
  | missing
  deriving DecidableEq

/-- What the real calls would return. -/
structure World where
  actor : List Outcome → String → Except String Bytes
  generator : List Outcome → Except String (Option Bytes)
  ffi : List Outcome → FfiRet × List (Nat × Bytes)
  stdlib : List Outcome → String → String → UInt64 → TraceOutcome
  native : List Outcome → UInt32 → String → UInt64 → TraceOutcome

def actorOutcome : Except String Bytes → BoundaryOutcome
  | .ok b => .bytes b
  | .error msg => .panic msg

def generatorOutcome : Except String (Option Bytes) → BoundaryOutcome
  | .ok (some b) => .bytes b
  | .ok none => .done
  | .error msg => .panic msg

open DeterminismContext

/-- One operation as the interpreter carries it out under a context. -/
def seam (w : World) (past : List Outcome) (c : DeterminismContext) :
    TraceOp → Outcome × DeterminismContext
  | .clock => c.clockNowMs.map .float id
  | .monotonic => c.clockMonotonicMs.map .float id
  | .random => c.nextRandomF64.map .float id
  | .bytes n => (c.nextSeededBytes n).map .bytes id
  | .sleep ms => (.unit, c.sleep ms)
  | .actor method =>
    match if c.mode = .replay then c.replayActorCall method else (none, c) with
    | (some o, c) => (.boundary o, c)
    | (none, c) =>
      let o := actorOutcome (w.actor past method)
      (.boundary o, if c.mode = .record then c.recordActorCall method o else c)
  | .generator =>
    match if c.mode = .replay then c.replayGeneratorYield else (none, c) with
    | (some o, c) => (.boundary o, c)
    | (none, c) =>
      let o := generatorOutcome (w.generator past)
      (.boundary o, if c.mode = .record then c.recordGeneratorYield o else c)
  | .ffi =>
    match if c.mode = .replay then c.replayFfiCall else (none, c) with
    | (some (ret, out), c) => (.ffi ret out, c)
    | (none, c) =>
      let (ret, out) := w.ffi past
      (.ffi ret out, if c.mode = .record then c.recordFfiCall ret out else c)
  | .stdlib mod func hash =>
    match c.mode with
    | .replay => (c.replayStdlibCall mod func hash).map (·.elim .missing .trace) id
    | .record =>
      let o := w.stdlib past mod func hash
      (.trace o, c.recordStdlibCall mod func hash o)
  | .native vid method hash =>
    match c.mode with
    | .replay => (c.replayNativeCall vid method hash).map (·.elim .missing .trace) id
    | .record =>
      let o := w.native past vid method hash
      (.trace o, c.recordNativeCall vid method hash o)

/-- An event of the kind and signature an operation asks for. -/
def TraceOp.agrees : TraceOp → Option DetEvent → Bool
  | clock, some (.clockRead _) => true
  | monotonic, some (.monotonicRead _) => true
  | random, some (.randomRead _) => true
  | bytes n, some (.bytesRead b) => b.length = n
  | sleep _, some (.timerSet _) => true
  | actor method, some (.actorCall recorded _ _) => recorded = method
  | generator, some (.generatorYield _ _) => true
  | ffi, some (.ffiCall _ _) => true
  | stdlib mod func hash, some (.stdlibCall rmod rfunc rhash _) =>
    rmod = mod ∧ rfunc = func ∧ rhash = hash
  | native vid method hash, some (.nativeCall rvid rmethod rhash _) =>
    rvid = vid ∧ rmethod = method ∧ rhash = hash
  | _, _ => false

structure Recording (c : DeterminismContext) : Prop where
  mode : c.mode = .record
  pending : c.pendingDivergence = none

theorem Recording.recordEvent (h : Recording c) (ev : DetEvent) : Recording (c.recordEvent ev) :=
  ⟨h.mode, h.pending⟩

structure Replaying (c : DeterminismContext) : Prop where
  mode : c.mode = .replay
  strict : c.strict = true
  origin : c.origin = .cliTrace

def cut (c : DeterminismContext) : DeterminismContext :=
  { c with events := c.events.take c.cursor }

theorem Replaying.diverge (h : Replaying c) (wanted : String) (ev : Option DetEvent) :
    Replaying (c.diverge wanted ev) := by
  cases ev <;> exact ⟨h.mode, h.strict, h.origin⟩

theorem Replaying.cut (h : Replaying c) : Replaying (cut c) := ⟨h.mode, h.strict, h.origin⟩

end AScript.Det
