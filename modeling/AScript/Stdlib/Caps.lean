import AScript.Lib.Codec
import AScript.Lib.Machine

namespace AScript.Stdlib

open AScript.Lib

structure Path where
  absolute : Bool
  parts : List String
  deriving DecidableEq

namespace Path

/-- Empty parts and inner dots do not show; a leading dot does. -/
def new (s : String) : Path :=
  let absolute := s.startsWith "/"
  let parts := (s.splitOn "/").filter (· ≠ "")
  let dot := if !absolute && parts.head? = some "." then ["."] else []
  ⟨absolute, dot ++ parts.filter (· ≠ ".")⟩

def components (p : Path) : List String := if p.absolute then "/" :: p.parts else p.parts

def startsWith (p q : Path) : Bool := q.components.isPrefixOf p.components

end Path

/-- The part of the file system that path checks look at. -/
structure FileSystem where
  canonicalize : Path → Option Path
  exists? : Path → Bool

namespace FileSystem

def resolveAncestor (fs : FileSystem) (absolute : Bool) : List String → List String → Option Path
  | [], _ => none
  | part :: above, tail =>
    let tail := if part = ".." ∨ part = "." then tail else part :: tail
    let parent : Path := ⟨absolute, above.reverse⟩
    match if fs.exists? parent then fs.canonicalize parent else none with
    | some c => some { c with parts := c.parts ++ tail }
    | none => fs.resolveAncestor absolute above tail

def canonicalLossy (fs : FileSystem) (p : Path) : Path :=
  match fs.canonicalize p with
  | some c => c
  | none => (fs.resolveAncestor p.absolute p.parts.reverse []).getD p

def pathHasPrefix (fs : FileSystem) (path : Path) (pfx : String) : Bool :=
  (fs.canonicalLossy path).startsWith (fs.canonicalLossy (.new pfx))

end FileSystem

inductive IpAddr
  | v4 (octets : List Nat)
  | v6 (segments : List Nat)

namespace IpAddr

def number (radix : Nat) (digits : List Nat) : Nat := digits.foldl (· * radix + ·) 0

def octet (cs : List Char) : Option Nat := do
  guard (cs ≠ [] ∧ cs.length ≤ 3 ∧ cs.all Char.isDigit ∧ (cs.length = 1 ∨ cs.head? ≠ some '0'))
  let n := number 10 (← cs.mapM hexDigit)
  guard (n ≤ 255)
  return n

def readIpv4 (cs : List Char) : Option (List Nat) := do
  let octets ← (cs.splitOn '.').mapM octet
  guard (octets.length = 4)
  return octets

def group (cs : List Char) : Option Nat := do
  guard (cs ≠ [] ∧ cs.length ≤ 4)
  return number 16 (← cs.mapM hexDigit)

def groups (embed : Bool) : List (List Char) → Option (List Nat)
  | [] => some []
  | [last] =>
    match embed, readIpv4 last with
    | true, some [a, b, c, d] => some [a * 256 + b, c * 256 + d]
    | _, _ => (group last).map ([·])
  | g :: rest => do return (← group g) :: (← groups embed rest)

def readGroups (embed : Bool) (cs : List Char) : Option (List Nat) :=
  if cs = [] then some [] else groups embed (cs.splitOn ':')

def elision : List Char → Option (List Char × List Char)
  | ':' :: ':' :: rest => some ([], rest)
  | c :: rest => (elision rest).map fun (l, r) => (c :: l, r)
  | [] => none

def readIpv6 (cs : List Char) : Option (List Nat) :=
  match elision cs with
  | none => (readGroups true cs).filter (·.length = 8)
  | some (l, r) => do
    let head ← readGroups false l
    let tail ← readGroups true r
    guard (head.length + tail.length ≤ 7)
    return head ++ List.replicate (8 - head.length - tail.length) 0 ++ tail

def parse (s : String) : Option IpAddr :=
  match readIpv4 s.toList with
  | some octets => some (.v4 octets)
  | none => (readIpv6 s.toList).map .v6

def isLocal : IpAddr → Bool
  | .v4 [127, _, _, _] => true
  | .v4 [10, _, _, _] => true
  | .v4 [172, b, _, _] => 16 ≤ b && b ≤ 31
  | .v4 [192, 168, _, _] => true
  | .v4 [169, 254, _, _] => true
  | .v4 _ => false
  | .v6 segments =>
    segments = [0, 0, 0, 0, 0, 0, 0, 1] || segments.headD 0 &&& 0xfe00 = 0xfc00 ||
      segments.headD 0 &&& 0xffc0 = 0xfe80

end IpAddr

def stripBrackets (host : String) : String :=
  match host.toList with
  | '[' :: rest => if rest.getLast? = some ']' then String.ofList rest.dropLast else host
  | _ => host

def hostIsLoopbackOrPrivate (host : String) : Bool :=
  host = "localhost" || ((IpAddr.parse (stripBrackets host)).map IpAddr.isLocal).getD false

inductive Cap
  | fs
  | net
  | process
  | ffi
  | env
  deriving DecidableEq

namespace Cap

def bit : Cap → UInt8
  | fs => 0b00001
  | net => 0b00010
  | process => 0b00100
  | ffi => 0b01000
  | env => 0b10000

def all : List Cap := [fs, net, process, ffi, env]

end Cap

def allBits : UInt8 :=
  Cap.bit .fs ||| Cap.bit .net ||| Cap.bit .process ||| Cap.bit .ffi ||| Cap.bit .env

inductive FsDeny
  | write
  | all
  deriving DecidableEq

inductive NetDeny
  | external
  | all
  deriving DecidableEq

/-- A carve-out: the class is denied in some mode but for an allow-list. -/
structure Scope (δ : Type) where
  deny : δ
  allow : List String
  deriving DecidableEq

abbrev FsScope := Scope FsDeny

abbrev NetScope := Scope NetDeny

def Scope.allowsPath (fs : FileSystem) (s : FsScope) (path : Path) (isWrite : Bool) : Bool :=
  match s.deny with
  | .write => !isWrite || s.allow.any (fs.pathHasPrefix path ·)
  | .all => s.allow.any (fs.pathHasPrefix path ·)

def Scope.allowsHost (s : NetScope) (host : String) : Bool :=
  s.allow.any (· == host) ||
    match s.deny with
    | .external => hostIsLoopbackOrPrivate host
    | .all => false

inductive CapDecision
  | allow
  | deny
  | defer
  deriving DecidableEq

structure CapSet where
  bits : UInt8
  fsScope : Option FsScope
  netScope : Option NetScope
  deriving DecidableEq

namespace CapSet

def allGranted : CapSet := ⟨allBits, none, none⟩

def has (c : CapSet) (cap : Cap) : Bool := c.bits &&& cap.bit != 0

def deny (c : CapSet) (cap : Cap) : CapSet :=
  let c := { c with bits := c.bits &&& ~~~cap.bit }
  match cap with
  | .fs => { c with fsScope := none }
  | .net => { c with netScope := none }
  | _ => c

def denyAllDangerous (c : CapSet) : CapSet := Cap.all.foldl deny c

def setFsScope (c : CapSet) (scope : FsScope) : CapSet :=
  { c with bits := c.bits &&& ~~~Cap.bit .fs, fsScope := some scope }

def setNetScope (c : CapSet) (scope : NetScope) : CapSet :=
  { c with bits := c.bits &&& ~~~Cap.bit .net, netScope := some scope }

def dispatchDecision (c : CapSet) (cap : Cap) : CapDecision :=
  if c.has cap then .allow
  else
    match cap with
    | .fs => if c.fsScope.isSome then .defer else .deny
    | .net => if c.netScope.isSome then .defer else .deny
    | _ => .deny

end CapSet

def stricter [DecidableEq δ] (strict loose a b : δ) : δ :=
  if a = strict ∨ b = strict then strict else loose

def stricterFsDeny : FsDeny → FsDeny → FsDeny := stricter .all .write

def stricterNetDeny : NetDeny → NetDeny → NetDeny := stricter .all .external

def intersectAllow (a b : List String) : List String :=
  a.foldl (fun out s => if b.contains s && !out.contains s then out ++ [s] else out) []

def merge (stricter : δ → δ → δ) :
    Bool → Option (Scope δ) → Bool → Option (Scope δ) → Option (Scope δ)
  | true, _, true, _ => none
  | true, _, false, some s => some s
  | false, some s, true, _ => some s
  | false, some a, false, some b => some ⟨stricter a.deny b.deny, intersectAllow a.allow b.allow⟩
  | _, _, _, _ => none

def mergeFs (a b : CapSet) : Option FsScope :=
  merge stricterFsDeny (a.has .fs) a.fsScope (b.has .fs) b.fsScope

def mergeNet (a b : CapSet) : Option NetScope :=
  merge stricterNetDeny (a.has .net) a.netScope (b.has .net) b.netScope

def CapSet.restrictWith (a b : CapSet) : CapSet :=
  let out : CapSet := ⟨a.bits &&& b.bits, none, none⟩
  let out := match mergeFs a b with
    | some scope => out.setFsScope scope
    | none => out
  match mergeNet a b with
  | some scope => out.setNetScope scope
  | none => out

def maxEntries : Nat := 4096

def maxStringLen : Nat := 64 * 1024

inductive CapsDecodeError
  | truncated
  | invalidPresence (byte : UInt8)
  | invalidMode (byte : UInt8)
  | countTooLarge (count : Nat)
  | stringTooLong (length : Nat)
  | invalidUtf8

abbrev Cursor := Reader Unit CapsDecodeError

namespace Cursor

def u8 : Cursor UInt8 := Reader.u8 .truncated

def string : Cursor String := do
  let len ← Reader.word .truncated 4
  if len > maxStringLen then throw (.stringTooLong len)
  match ofUtf8 (← Reader.take .truncated len) with
  | some s => return s
  | none => throw .invalidUtf8

def stringList : Cursor (List String) := do
  let count ← Reader.word .truncated 2
  if count > maxEntries then throw (.countTooLarge count)
  Reader.many string count

def scope (mode : UInt8 → Option δ) : Cursor (Option (Scope δ)) := do
  match ← u8 with
  | 0 => return none
  | 1 =>
    let byte ← u8
    match mode byte with
    | some deny => return some ⟨deny, ← stringList⟩
    | none => throw (.invalidMode byte)
  | other => throw (.invalidPresence other)

def fsScope : Cursor (Option FsScope) :=
  scope (fun | 0 => some .write | 1 => some .all | _ => none)

def netScope : Cursor (Option NetScope) :=
  scope (fun | 0 => some .external | 1 => some .all | _ => none)

def capSet : Cursor CapSet := do
  let bits ← u8
  let fsScope ← fsScope
  let netScope ← netScope
  return ⟨bits, fsScope, netScope⟩

end Cursor

/-- The decoded set and the number of bytes it took. -/
def CapSet.fromBytes (b : List UInt8) : Except CapsDecodeError (CapSet × Nat) := do
  let (c, rest, _) ← Cursor.capSet (b, ())
  return (c, b.length - rest.length)

def writeStringList (allow : List String) : List UInt8 := le 2 allow.length ++ allow.flatMap putStr

def writeScope (mode : δ → UInt8) : Option (Scope δ) → List UInt8
  | none => [0]
  | some s => [1] ++ ([mode s.deny] ++ writeStringList s.allow)

def writeFsScope : Option FsScope → List UInt8 := writeScope fun | .write => 0 | .all => 1

def writeNetScope : Option NetScope → List UInt8 := writeScope fun | .external => 0 | .all => 1

def CapSet.toBytes (c : CapSet) : List UInt8 :=
  [c.bits] ++ (writeFsScope c.fsScope ++ writeNetScope c.netScope)

def Scope.Sized (s : Scope δ) : Prop :=
  s.allow.length ≤ maxEntries ∧ ∀ t ∈ s.allow, (utf8 t).length ≤ maxStringLen

theorem string_reads (h : (utf8 t).length ≤ maxStringLen) :
    Reads Cursor.string (putStr t) () t () := by
  refine (Reads.word (Nat.lt_of_le_of_lt h (by decide))).bind ?_
  rw [if_neg (Nat.not_lt.mpr h)]
  refine Reads.take.andThen ?_
  rw [ofUtf8_utf8]
  exact .pure

theorem strings_reads (h : ∀ t ∈ ts, (utf8 t).length ≤ maxStringLen) :
    Reads (Reader.many Cursor.string ts.length) (ts.flatMap putStr) () ts () := by
  induction ts with
  | nil => exact .pure
  | cons t ts ih =>
    refine (string_reads (h t (by simp))).bind ?_
    exact (ih fun t ht => h t (by simp [ht])).andThen .pure

theorem scope_reads {mode : UInt8 → Option δ} {byte : δ → UInt8} (hm : ∀ d, mode (byte d) = some d)
    (h : ∀ s ∈ o, s.Sized) : Reads (Cursor.scope mode) (writeScope byte o) () o () := by
  cases o with
  | none => exact (Reads.u8 0).andThen .pure
  | some s =>
    obtain ⟨hn, hs⟩ := h s rfl
    refine (Reads.u8 1).bind ((Reads.u8 (byte s.deny)).bind ?_)
    rw [hm]
    have hlist : Reads Cursor.stringList (writeStringList s.allow) () s.allow () := by
      refine (Reads.word (Nat.lt_of_le_of_lt hn (by decide))).bind ?_
      rw [if_neg (Nat.not_lt.mpr hn)]
      exact strings_reads hs
    exact hlist.andThen .pure

theorem CapSet.fromBytes_toBytes {c : CapSet} (hf : ∀ s ∈ c.fsScope, s.Sized)
    (hn : ∀ s ∈ c.netScope, s.Sized) (rest : List UInt8) :
    fromBytes (c.toBytes ++ rest) = .ok (c, c.toBytes.length) := by
  have hset : Reads Cursor.capSet c.toBytes () c () :=
    (Reads.u8 c.bits).bind ((scope_reads (fun d => by cases d <;> rfl) hf).bind
      ((scope_reads (fun d => by cases d <;> rfl) hn).andThen .pure))
  rw [fromBytes, hset rest]
  simp [bind, Except.bind, pure, Except.pure]

end AScript.Stdlib
