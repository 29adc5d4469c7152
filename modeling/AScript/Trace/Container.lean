import AScript.Det.Context
import AScript.Lib.Cursor

/-! The trace container (`trace.rs`): recorded events in checksummed records behind a header. -/

namespace AScript.Trace

open AScript.Lib AScript.Det

def traceFormatVersion : Nat := 1

def traceMagic : List UInt8 := [65, 83, 84, 82, 67, 0, 0, 0]

inductive TraceKind
  | run
  | test
  deriving DecidableEq

def TraceKind.toU8 : TraceKind → UInt8
  | run => 0
  | test => 1

def TraceKind.fromU8 (b : UInt8) : Option TraceKind :=
  match b.toNat with
  | 0 => some .run
  | 1 => some .test
  | _ => none

structure TraceHeader where
  seed : UInt64
  startMs : F64
  kind : TraceKind
  programPath : String
  sourceSha256 : { bs : List UInt8 // bs.length = 32 }
  argv : List String
  testName : Option String
  filter : Option String
  createdMs : F64
  engine : UInt8

inductive FfiRet
  | int (i : I64)
  | float (f : F64)
  | void

/-- `DetEvent`, with floats as their bits. -/
inductive Event
  | clockRead (value : F64)
  | randomRead (value : F64)
  | bytesRead (bytes : Bytes)
  | monotonicRead (value : F64)
  | timerSet (wake : F64)
  | activityCompleted (name : String) (argsHash : UInt64) (resultJson : String)
  | actorCall (method : String) (result : Bytes) (panic : Option String)
  | ffiCall (ret : FfiRet) (outParams : List (UInt64 × Bytes))
  | generatorYield (value : Option Bytes) (panic : Option String)
  | stdlibCall (mod func : String) (argsHash : UInt64) (outcome : TraceOutcome)
  | nativeCall (vid : UInt32) (method : String) (argsHash : UInt64) (outcome : TraceOutcome)

inductive TraceError
  | badMagic
  | versionTooNew (found max : Nat)
  | truncated (record : Option Nat)
  | badCrc (record : Option Nat)
  | unknownRecordKind (record : Nat) (kind : UInt8)
  | badTag (record : Option Nat) (what : String) (tag : UInt8)
  | badUtf8 (record : Option Nat)
  | overflow (record : Option Nat)
  | badEndMarker
  | trailingBytes

def crcEntry (i : UInt32) : UInt32 :=
  Nat.iterate (fun c => if c &&& 1 ≠ 0 then (0xEDB88320 : UInt32) ^^^ (c >>> 1) else c >>> 1) 8 i

def crc32 (data : List UInt8) : UInt32 :=
  data.foldl (fun crc b => crcEntry ((crc ^^^ b.toUInt32) &&& 0xFF) ^^^ (crc >>> 8)) 0xFFFFFFFF ^^^
    0xFFFFFFFF

example : crc32 (utf8 "123456789") = 0xCBF43926 := by decide +kernel

def putCount (n : Nat) : List UInt8 := le 4 (min n (2 ^ 32 - 1))

def putField (bs : List UInt8) : List UInt8 := putCount bs.length ++ bs

def putText (s : String) : List UInt8 := putField (utf8 s)

def putU64 (n : UInt64) : List UInt8 := le 8 n.toNat

def putU32 (n : UInt32) : List UInt8 := le 4 n.toNat

def putF64 (f : F64) : List UInt8 := le 8 f.bits.toNat

def putOpt (put : α → List UInt8) : Option α → List UInt8
  | some a => 1 :: put a
  | none => [0]

def putList (put : α → List UInt8) (as : List α) : List UInt8 :=
  putCount as.length ++ as.flatMap put

def putOutcome : TraceOutcome → List UInt8
  | .value b => 0 :: putField b
  | .panic s => 1 :: putText s
  | .propagate b => 2 :: putField b
  | .handle kindTag vid fields => 3 :: kindTag :: (putU32 vid ++ putField fields)

def putFfiRet : FfiRet → List UInt8
  | .int i => 0 :: le 8 (i.val % 2 ^ 64).toNat
  | .float f => 1 :: putF64 f
  | .void => [2]

def putOutParam (p : UInt64 × Bytes) : List UInt8 := putU64 p.1 ++ putField p.2

def recordKind : Event → UInt8
  | .clockRead _ => 1
  | .randomRead _ => 2
  | .bytesRead _ => 3
  | .monotonicRead _ => 4
  | .timerSet _ => 5
  | .activityCompleted _ _ _ => 6
  | .actorCall _ _ _ => 7
  | .ffiCall _ _ => 8
  | .generatorYield _ _ => 9
  | .stdlibCall _ _ _ _ => 10
  | .nativeCall _ _ _ _ => 11

/-- `encode_event`: the payload; its kind is `recordKind`. -/
def encodeEvent : Event → List UInt8
  | .clockRead value | .randomRead value | .monotonicRead value | .timerSet value => putF64 value
  | .bytesRead bytes => putField bytes
  | .activityCompleted name argsHash resultJson =>
    putText name ++ (putU64 argsHash ++ putText resultJson)
  | .actorCall method result panic => putText method ++ (putField result ++ putOpt putText panic)
  | .ffiCall ret outParams =>
    putFfiRet ret ++ putList putOutParam outParams
  | .generatorYield value panic => putOpt putField value ++ putOpt putText panic
  | .stdlibCall mod func argsHash outcome =>
    putText mod ++ (putText func ++ (putU64 argsHash ++ putOutcome outcome))
  | .nativeCall vid method argsHash outcome =>
    putU32 vid ++ (putText method ++ (putU64 argsHash ++ putOutcome outcome))

def encodeHeaderBody (h : TraceHeader) : List UInt8 :=
  putU64 h.seed ++ (putF64 h.startMs ++ (h.kind.toU8 :: (putText h.programPath ++
    (h.sourceSha256.val ++ (putList putText h.argv ++ (putOpt putText h.testName ++
      (putOpt putText h.filter ++ (putF64 h.createdMs ++ [h.engine]))))))))

def crcInput (kind : UInt8) (payload : List UInt8) : List UInt8 :=
  kind :: (le 4 payload.length ++ payload)

def recordBody (ev : Event) : List UInt8 :=
  putField (encodeEvent ev) ++ putU32 (crc32 (crcInput (recordKind ev) (encodeEvent ev)))

def encodeRecord (ev : Event) : List UInt8 := recordKind ev :: recordBody ev

/-- Everything before the version is `traceMagic`; this is what follows the version. -/
def encodeBody (h : TraceHeader) (events : List Event) : List UInt8 :=
  putField (encodeHeaderBody h) ++ (putU32 (crc32 (encodeHeaderBody h)) ++
    (events.flatMap encodeRecord ++ (0xFF :: putCount events.length)))

def encodeTrace (h : TraceHeader) (events : List Event) : List UInt8 :=
  traceMagic ++ (le 2 traceFormatVersion ++ encodeBody h events)

abbrev Get := Scan TraceError

section Fields

variable (cur : Option Nat)

def take (n : Nat) : Get (List UInt8) := Scan.take (.overflow cur) (.truncated cur) n

def word (k : Nat) : Get Nat := Scan.word (.overflow cur) (.truncated cur) k

def u8 : Get UInt8 := do return UInt8.ofNat (← word cur 1)

def u32 : Get UInt32 := do return UInt32.ofNat (← word cur 4)

def u64 : Get UInt64 := do return UInt64.ofNat (← word cur 8)

def i64 : Get I64 := do return I64.wrap (← word cur 8)

def f64 : Get F64 := do return ⟨BitVec.ofNat 64 (← word cur 8)⟩

def bytes : Get Bytes := Scan.bytes (.overflow cur) (.truncated cur)

def str : Get String := Scan.str (.overflow cur) (.truncated cur) (.badUtf8 cur)

def opt (what : String) (get : Get α) : Get (Option α) := do
  let tag ← u8 cur
  match tag.toNat with
  | 0 => return none
  | 1 => return some (← get)
  | _ => throw (.badTag cur what tag)

def optStr : Get (Option String) := opt cur "opt-string" (str cur)

def optBytes : Get (Option Bytes) := opt cur "opt-bytes" (bytes cur)

def list (get : Get α) : Get (List α) := do
  let n ← word cur 4
  Scan.many get n

def readOutcome : Get TraceOutcome := do
  let tag ← u8 cur
  match tag.toNat with
  | 0 => return .value (← bytes cur)
  | 1 => return .panic (← str cur)
  | 2 => return .propagate (← bytes cur)
  | 3 => do
    let kindTag ← u8 cur
    let vid ← u32 cur
    let fields ← bytes cur
    return .handle kindTag vid fields
  | _ => throw (.badTag cur "outcome" tag)

def readFfiRet : Get FfiRet := do
  let tag ← u8 cur
  match tag.toNat with
  | 0 => return .int (← i64 cur)
  | 1 => return .float (← f64 cur)
  | 2 => return .void
  | _ => throw (.badTag cur "ffi-ret" tag)

def readOutParam : Get (UInt64 × Bytes) := do
  let idx ← u64 cur
  let bytes ← bytes cur
  return (idx, bytes)

end Fields

/-- `decode_event`, up to the check that the payload is used up. -/
def readEvent (kind : UInt8) (cur : Nat) : Get Event :=
  match kind.toNat with
  | 1 => do return .clockRead (← f64 (some cur))
  | 2 => do return .randomRead (← f64 (some cur))
  | 3 => do return .bytesRead (← bytes (some cur))
  | 4 => do return .monotonicRead (← f64 (some cur))
  | 5 => do return .timerSet (← f64 (some cur))
  | 6 => do
    let name ← str (some cur)
    let argsHash ← u64 (some cur)
    let resultJson ← str (some cur)
    return .activityCompleted name argsHash resultJson
  | 7 => do
    let method ← str (some cur)
    let result ← bytes (some cur)
    let panic ← optStr (some cur)
    return .actorCall method result panic
  | 8 => do
    let ret ← readFfiRet (some cur)
    let outParams ← list (some cur) (readOutParam (some cur))
    return .ffiCall ret outParams
  | 9 => do
    let value ← optBytes (some cur)
    let panic ← optStr (some cur)
    return .generatorYield value panic
  | 10 => do
    let mod ← str (some cur)
    let func ← str (some cur)
    let argsHash ← u64 (some cur)
    let outcome ← readOutcome (some cur)
    return .stdlibCall mod func argsHash outcome
  | 11 => do
    let vid ← u32 (some cur)
    let method ← str (some cur)
    let argsHash ← u64 (some cur)
    let outcome ← readOutcome (some cur)
    return .nativeCall vid method argsHash outcome
  | _ => throw (.unknownRecordKind cur kind)

def decodeEvent (kind : UInt8) (cur : Nat) : Get Event :=
  Scan.whole (.truncated (some cur)) (readEvent kind cur)

def readKind : Get TraceKind := do
  let kindByte ← u8 none
  match TraceKind.fromU8 kindByte with
  | some kind => return kind
  | none => throw (.badTag none "trace-kind" kindByte)

def readHeader : Get TraceHeader := do
  let seed ← u64 none
  let startMs ← f64 none
  let kind ← readKind
  let programPath ← str none
  let sourceSha256 ← Scan.array (.overflow none) (.truncated none) 32
  let argv ← list none (str none)
  let testName ← optStr none
  let filter ← optStr none
  let createdMs ← f64 none
  let engine ← u8 none
  return ⟨seed, startMs, kind, programPath, sourceSha256, argv, testName, filter, createdMs, engine⟩

def decodeHeaderBody : Get TraceHeader := Scan.whole (.truncated none) readHeader

def readRecord (tag : UInt8) (cur : Nat) : Get Event := do
  let payloadLen ← word (some cur) 4
  let payload ← take (some cur) payloadLen
  let recCrc ← u32 (some cur)
  if crc32 (tag :: (le 4 payloadLen ++ payload)) ≠ recCrc then throw (.badCrc (some cur))
  Scan.inside payload (decodeEvent tag cur)

def readCount (events : List Event) : Get (List Event) := do
  let count ← word none 4
  if count ≠ events.length then throw .badEndMarker
  return events

def readEnd (events : List Event) : Get (List Event) :=
  Scan.whole .trailingBytes (readCount events)

def readRecords : Nat → List Event → Get (List Event)
  | 0, _ => Scan.fault
  | fuel + 1, events => do
    let tag ← u8 (some events.length)
    if tag = 0xFF then
      readEnd events
    else
      let ev ← readRecord tag events.length
      readRecords fuel (events ++ [ev])

def readBody (fuel : Nat) : Get (TraceHeader × List Event) := do
  let headerLen ← word none 4
  let body ← take none headerLen
  let headerCrc ← u32 none
  if crc32 body ≠ headerCrc then throw (.badCrc none)
  let header ← Scan.inside body decodeHeaderBody
  let events ← readRecords fuel []
  return (header, events)

def readContainer (fuel : Nat) : Get (TraceHeader × List Event) := do
  let magic ← take none 8
  if magic ≠ traceMagic then throw .badMagic
  let version ← word none 2
  if traceFormatVersion < version then throw (.versionTooNew version traceFormatVersion)
  readBody fuel

/-- Every turn of the loop reads a byte. -/
def readTrace (bytes : List UInt8) : Option (Except TraceError (TraceHeader × List Event)) :=
  Option.map (Except.map Prod.fst) (readContainer (bytes.length + 1) ⟨bytes, 0⟩)

end AScript.Trace
