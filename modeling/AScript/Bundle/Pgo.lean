import AScript.Lib.Cursor

/-! Profiles behind an archive, and the scan for what stands there (`vm/pgo.rs`). -/

namespace AScript.Bundle

open AScript.Lib

def pgoSectionMagic : List UInt8 := [65, 83, 80, 71, 79, 0, 0, 0]

def pgoSectionVersion : UInt16 := 1

def maxPgoItems : Nat := 2 ^ 20

structure PgoProto where
  path : List UInt32
  arith : List (UInt32 × UInt8)
  fields : List (UInt32 × List UInt32)
  globals : List UInt32
  deriving DecidableEq

structure PgoModule where
  moduleKey : String
  chunkSha256 : { bs : List UInt8 // bs.length = 32 }
  protos : List PgoProto
  deriving DecidableEq

structure PgoSection where
  keyLists : List (List String)
  modules : List PgoModule
  deriving DecidableEq

/-- A section of any kind. -/
structure TrailingSection where
  magic : { bs : List UInt8 // bs.length = 8 }
  version : UInt16
  payload : List UInt8
  deriving DecidableEq

namespace Pgo

def writeU32 (n : Nat) : List UInt8 := le 4 (min n (2 ^ 32 - 1))

def writeStr (s : String) : List UInt8 := writeU32 (utf8 s).length ++ utf8 s

def writeIdx (n : UInt32) : List UInt8 := le 4 n.toNat

def writeList (write : α → List UInt8) (as : List α) : List UInt8 :=
  writeU32 as.length ++ as.flatMap write

def writeShort (idxs : List UInt32) : List UInt8 :=
  UInt8.ofNat (min idxs.length 255) :: (idxs.take (min idxs.length 255)).flatMap writeIdx

def writeArith (a : UInt32 × UInt8) : List UInt8 := writeIdx a.1 ++ [a.2]

def writeField (f : UInt32 × List UInt32) : List UInt8 := writeIdx f.1 ++ writeShort f.2

def writeProto (p : PgoProto) : List UInt8 :=
  writeShort p.path ++ (writeList writeArith p.arith ++ (writeList writeField p.fields ++
    writeList writeIdx p.globals))

def writeModule (m : PgoModule) : List UInt8 :=
  writeStr m.moduleKey ++ (m.chunkSha256.val ++ writeList writeProto m.protos)

end Pgo

def PgoSection.encodePayload (s : PgoSection) : List UInt8 :=
  Pgo.writeList (Pgo.writeList Pgo.writeStr) s.keyLists ++ Pgo.writeList Pgo.writeModule s.modules

def PgoSection.encode (s : PgoSection) : List UInt8 :=
  pgoSectionMagic ++ (le 2 pgoSectionVersion.toNat ++
    (Pgo.writeU32 s.encodePayload.length ++ s.encodePayload))

namespace Pgo

abbrev Get := Scan Unit

def take (n : Nat) : Get (List UInt8) := Scan.take () () n

def word (k : Nat) : Get Nat := Scan.word () () k

def u8 : Get UInt8 := do return UInt8.ofNat (← word 1)

def u32Raw : Get UInt32 := do return UInt32.ofNat (← word 4)

def u32Clamped : Get Nat := do
  let v ← word 4
  if maxPgoItems < v then throw ()
  return v

def remaining : Get Nat := fun c => some (.ok (c.buf.length - c.pos, c))

def str : Get String := do
  let len ← word 4
  let left ← remaining
  if left < len then throw ()
  let bytes ← take len
  match ofUtf8 bytes with
  | some s => return s
  | none => throw ()

def list (get : Get α) : Get (List α) := do
  let n ← u32Clamped
  Scan.many get n

def readShort (get : Get UInt32) : Get (List UInt32) := do
  let n ← u8
  if maxPgoItems < n.toNat then throw ()
  Scan.many get n.toNat

def readArith : Get (UInt32 × UInt8) := do
  let off ← u32Raw
  let kind ← u8
  if 3 < kind then throw ()
  return (off, kind)

def readListIdx (keyLists : Nat) : Get UInt32 := do
  let idx ← u32Raw
  if keyLists ≤ idx.toNat then throw ()
  return idx

def readField (keyLists : Nat) : Get (UInt32 × List UInt32) := do
  let off ← u32Raw
  let idxs ← readShort (readListIdx keyLists)
  return (off, idxs)

def readProto (keyLists : Nat) : Get PgoProto := do
  let path ← readShort u32Raw
  let arith ← list readArith
  let fields ← list (readField keyLists)
  let globals ← list u32Raw
  return ⟨path, arith, fields, globals⟩

def readModule (keyLists : Nat) : Get PgoModule := do
  let moduleKey ← str
  let chunkSha256 ← Scan.array () () 32
  let protos ← list (readProto keyLists)
  return ⟨moduleKey, chunkSha256, protos⟩

def readSection : Get PgoSection := do
  let keyLists ← list (list str)
  let modules ← list (readModule keyLists.length)
  return ⟨keyLists, modules⟩

end Pgo

def PgoSection.decode (payload : List UInt8) : Option (Option PgoSection) :=
  match Pgo.readSection ⟨payload, 0⟩ with
  | none => none
  | some (.error _) => some none
  | some (.ok (s, _)) => some (some s)

def toArray (n : Nat) (bs : List UInt8) : Option { bs : List UInt8 // bs.length = n } :=
  if h : bs.length = n then some ⟨bs, h⟩ else none

def scanFrom (bytes : List UInt8) : Nat → Nat → List TrailingSection → Option (List TrailingSection)
  | 0, _, _ => none
  | fuel + 1, pos, sections =>
    if bytes.length - pos < 14 then some sections
    else do
      let magic ← slice bytes pos (pos + 8)
      let magic ← toArray 8 magic
      let version ← fromLe 2 (bytes.drop (pos + 8))
      let sectionLen ← fromLe 4 (bytes.drop (pos + 8 + 2))
      let pos := pos + 8 + 2 + 4
      if pos + sectionLen < 2 ^ 64 ∧ pos + sectionLen ≤ bytes.length then
        let payload ← slice bytes pos (pos + sectionLen)
        scanFrom bytes fuel (pos + sectionLen)
          (sections ++ [⟨magic, UInt16.ofNat version, payload⟩])
      else
        some sections

def scanTrailingSections (bytes : List UInt8) (startOffset : Nat) : Option (List TrailingSection) :=
  scanFrom bytes (bytes.length + 1) startOffset []

def firstPgo : List TrailingSection → Option (Option PgoSection)
  | [] => some none
  | sec :: sections =>
    if sec.magic.val = pgoSectionMagic then
      if sec.version ≠ pgoSectionVersion then some none else PgoSection.decode sec.payload
    else firstPgo sections

def findAndDecodePgo (bytes : List UInt8) (startOffset : Nat) : Option (Option PgoSection) := do
  let sections ← scanTrailingSections bytes startOffset
  firstPgo sections

end AScript.Bundle
