import AScript.Lib.Codec
import AScript.Lib.LossyUtf8
import AScript.Lib.Message
import AScript.Lib.Source
import AScript.Stdlib.Semver

namespace AScript.Stdlib.Http1

open AScript.Lib
open AScript.Lib.Message (Bytes)
open AScript.Stdlib.Semver (trim)

inductive ErrorKind
  | unexpectedEof
  | invalidData
  deriving DecidableEq

structure IoError where
  kind : ErrorKind
  message : String

def maxHeaderBlock : Nat := 64 * 1024

def maxChunkSize : Nat := 16 * 1024 * 1024

def closedMidLine : IoError := ⟨.unexpectedEof, "http1: connection closed mid-line"⟩

def closedMidChunk : IoError := ⟨.unexpectedEof, "http1: connection closed mid-chunk"⟩

def closedBeforeLength : IoError :=
  ⟨.unexpectedEof, "http1: connection closed before Content-Length body completed"⟩

def missingCrlf : IoError := ⟨.invalidData, "http1: missing CRLF after chunk data"⟩

def lineTooLong (max : Nat) : IoError :=
  ⟨.invalidData, "http1: line exceeds " ++ toString max ++ "-byte limit"⟩

def badChunkSize (sizePart : List Char) : IoError :=
  ⟨.invalidData, "http1: bad chunk size '" ++ String.ofList sizePart ++ "'"⟩

def chunkTooLarge (size : Nat) : IoError :=
  ⟨.invalidData, "http1: chunk size " ++ toString size ++ " exceeds " ++ toString maxChunkSize ++
    "-byte cap"⟩

def pushDigit (n : Nat) (c : Char) : Option Nat := do
  let d ← hexDigit c
  if 16 * n + d < 2 ^ 64 then some (16 * n + d) else none

def fromStrRadix16 (s : List Char) : Option Nat :=
  let digits := if s.head? = some '+' then s.tail else s
  if digits.isEmpty then none else digits.foldlM pushDigit 0

def chunkSize (line : List Char) : Except IoError Nat :=
  let sizePart := trim (line.takeWhile (· != ';'))
  match fromStrRadix16 sizePart with
  | none => .error (badChunkSize sizePart)
  | some size => if size > maxChunkSize then .error (chunkTooLarge size) else .ok size

section Lines

variable (src : Source UInt8)

def endOfStream (line : Bytes) (s : src.State) : Except IoError (Bytes × src.State) :=
  if line.isEmpty then .error closedMidLine else .ok (line, s)

def readLine (max : Nat) : Nat → Bytes → src.State → Except IoError (Bytes × src.State)
  | 0, line, s => endOfStream src line s
  | fuel + 1, line, s =>
    match src.read s 1 with
    | ([], s) => endOfStream src line s
    | (b :: _, s) =>
      if b = 10 then .ok (line, s)
      else if line.length ≥ max then .error (lineTooLong max)
      else readLine max fuel (line ++ [b]) s

def stripCr (line : Bytes) : Bytes := if line.getLast? = some 13 then line.dropLast else line

def readLineLimited (s : src.State) (max : Nat) : Except IoError (List Char × src.State) := do
  let (line, s) ← readLine src max (src.left s).length [] s
  .ok (LossyUtf8.decode (stripCr line), s)

def skipTrailers : Nat → src.State → Except IoError src.State
  | 0, _ => .error closedMidLine
  | fuel + 1, s => do
    let (trailer, s) ← readLineLimited src s maxHeaderBlock
    if trailer.isEmpty then .ok s else skipTrailers fuel s

end Lines

inductive Framing
  | contentLength (remaining : Nat)
  | chunked
  | readToEof
  | empty

structure BodyReader (src : Source UInt8) where
  reader : src.State
  framing : Framing
  chunkRemaining : Option Nat
  done : Bool

namespace BodyReader

/-- Behind the head of a chunked response. -/
def chunked {src : Source UInt8} (reader : src.State) : BodyReader src :=
  ⟨reader, .chunked, none, false⟩

variable {src : Source UInt8} (b : BodyReader src)

def readData (remaining n : Nat) : Except IoError (Bytes × BodyReader src) :=
  let (got, reader) := src.read b.reader (min remaining n)
  if got.isEmpty then .error closedMidChunk
  else .ok (got, { b with reader, chunkRemaining := some (remaining - got.length) })

def nextChunk (n : Nat) : Except IoError (Bytes × BodyReader src) := do
  let (line, reader) ← readLineLimited src b.reader maxHeaderBlock
  let size ← chunkSize line
  if size = 0 then
    let reader ← skipTrailers src ((src.left reader).length + 1) reader
    .ok ([], { b with reader, done := true })
  else readData { b with reader, chunkRemaining := some size } size n

def readChunked (n : Nat) : Except IoError (Bytes × BodyReader src) :=
  match b.chunkRemaining with
  | none => b.nextChunk n
  | some 0 => do
    let (crlf, reader) ← readLineLimited src b.reader 8
    if crlf.isEmpty then nextChunk { b with reader, chunkRemaining := none } n
    else .error missingCrlf
  | some remaining => b.readData remaining n

/-- Into a buffer of `n` bytes. -/
def readFrame (n : Nat) : Except IoError (Bytes × BodyReader src) :=
  if b.done ∨ n = 0 then .ok ([], b)
  else
    match b.framing with
    | .empty => .ok ([], { b with done := true })
    | .contentLength 0 => .ok ([], { b with done := true })
    | .contentLength remaining =>
      let (got, reader) := src.read b.reader (min remaining n)
      if got.isEmpty then .error closedBeforeLength
      else
        let remaining := remaining - got.length
        .ok (got, { b with reader, framing := .contentLength remaining, done := remaining == 0 })
    | .readToEof =>
      let (got, reader) := src.read b.reader n
      .ok (got, { b with reader, done := got.isEmpty })
    | .chunked => b.readChunked n

/-- Call after call, the `i`-th with a buffer of `bufs i` bytes; `none` if the fuel runs out. -/
def drain (bufs : Nat → Nat) (cap : Nat) :
    Nat → Nat → Bytes → BodyReader src → Option (Except String (Bytes × BodyReader src))
  | 0, _, _, _ => none
  | fuel + 1, i, out, b =>
    match b.readFrame (bufs i) with
    | .error e => some (.error ("http1: body read error: " ++ e.message))
    | .ok ([], b) => some (.ok (out, b))
    | .ok (got, b) =>
      if out.length + got.length > cap then
        some (.error ("http1: response body exceeds " ++ toString cap ++ "-byte limit"))
      else drain bufs cap fuel (i + 1) (out ++ got) b

/-- Every call but the last takes a byte. -/
def readBody (bufs : Nat → Nat) (cap : Nat) : Option (Except String (Bytes × BodyReader src)) :=
  drain bufs cap ((src.left b.reader).length + 1) 0 [] b

def readToEnd (cap : Nat) : Option (Except String (Bytes × BodyReader src)) :=
  b.readBody (fun _ => 16 * 1024) cap

end BodyReader

end AScript.Stdlib.Http1
