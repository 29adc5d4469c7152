import AScript.Lib.Cursor
import AScript.Lib.IndexMap
import AScript.Stdlib.Caps

/-! Module archives (`vm/archive.rs`). -/

namespace AScript.Bundle

open AScript.Lib AScript.Stdlib

def archiveMagic : List UInt8 := [65, 83, 67, 82, 73, 80, 84, 65]

def archiveVersion : Nat := 1

def maxModules : Nat := 2 ^ 20

inductive ArchiveError
  | badMagic (got : List UInt8)
  | versionMismatch (got expected : Nat)
  | truncated
  | overflow
  | tooManyModules (n : Nat)
  | invalidUtf8
  | entryOutOfRange (entry : UInt32) (count : Nat)
  | caps (e : CapsDecodeError)

/-- `entry(k).or_insert(i)`. -/
def orInsert (m : IndexMap String Nat) (k : String) (i : Nat) : IndexMap String Nat :=
  if m.containsKey k then m else m.insert k i

def indexKeys (modules : List (String × List UInt8)) : IndexMap String Nat :=
  modules.zipIdx.foldl (fun m p => orInsert m p.1.1 p.2) .empty

/-- The only constructor derives the index from the modules. -/
structure ModuleArchive where
  entry : UInt32
  caps : CapSet
  shakeDigest : { bs : List UInt8 // bs.length = 32 }
  modules : List (String × List UInt8)
  keyIndex : IndexMap String Nat
  keyIndex_eq : keyIndex = indexKeys modules

namespace ModuleArchive

def new (entry : UInt32) (caps : CapSet) (shakeDigest : { bs : List UInt8 // bs.length = 32 })
    (modules : List (String × List UInt8)) : ModuleArchive :=
  ⟨entry, caps, shakeDigest, modules, indexKeys modules, rfl⟩

/-- A lookup that indexes the modules out of range goes wrong. -/
def get (a : ModuleArchive) (key : String) : Option (Option (List UInt8)) :=
  match a.keyIndex.get key with
  | none => some none
  | some i => (a.modules[i]?).map fun m => some m.2

end ModuleArchive

def writeLen (n : Nat) : List UInt8 := le 4 (min n (2 ^ 32 - 1))

def writeModule (m : String × List UInt8) : List UInt8 :=
  writeLen (utf8 m.1).length ++ (utf8 m.1 ++ (writeLen m.2.length ++ m.2))

def ModuleArchive.encode (a : ModuleArchive) : List UInt8 :=
  archiveMagic ++ (le 2 archiveVersion ++ (le 4 a.entry.toNat ++
    (writeLen a.caps.toBytes.length ++ (a.caps.toBytes ++ (a.shakeDigest.val ++
      (writeLen a.modules.length ++ a.modules.flatMap writeModule))))))

namespace Archive

abbrev Get := Scan ArchiveError

def take (n : Nat) : Get (List UInt8) := Scan.take .overflow .truncated n

def word (k : Nat) : Get Nat := Scan.word .overflow .truncated k

def bytes : Get (List UInt8) := Scan.bytes .overflow .truncated

def str : Get String := Scan.str .overflow .truncated .invalidUtf8

def readModule : Get (String × List UInt8) := do
  let key ← str
  let chunk ← bytes
  return (key, chunk)

def readTable (entry : UInt32) (caps : CapSet) : Get ModuleArchive := do
  let shakeDigest ← Scan.array .overflow .truncated 32
  let moduleCount ← word 4
  if maxModules < moduleCount then throw (.tooManyModules moduleCount)
  if moduleCount ≤ entry.toNat then throw (.entryOutOfRange entry moduleCount)
  let modules ← Scan.many readModule moduleCount
  return .new entry caps shakeDigest modules

def read : Get ModuleArchive := do
  let magic ← take 8
  if magic ≠ archiveMagic then throw (.badMagic magic)
  let version ← word 2
  if version ≠ archiveVersion then throw (.versionMismatch version archiveVersion)
  let entry ← word 4
  let capsBytes ← bytes
  match CapSet.fromBytes capsBytes with
  | .error e => throw (.caps e)
  | .ok (caps, _) => readTable (UInt32.ofNat entry) caps

end Archive

/-- What stands behind the modules is not looked at. -/
def ModuleArchive.decode (b : List UInt8) : Option (Except ArchiveError ModuleArchive) :=
  Option.map (Except.map Prod.fst) (Archive.read ⟨b, 0⟩)

theorem get_orInsert (m : IndexMap String Nat) (k k' : String) (i : Nat) :
    (orInsert m k i).get k' = (m.get k').or (if k = k' then some i else none) := by
  unfold orInsert
  by_cases hk : m.containsKey k = true
  · rw [if_pos hk]
    by_cases he : k = k'
    · subst he
      have hsome : (m.get k).isSome := (m.isSome_get_iff k).mpr ((m.containsKey_iff k).mp hk)
      rw [Option.or_of_isSome hsome]
    · rw [if_neg he, Option.or_none]
  · have hnone : m.get k = none :=
      (m.get_eq_none k).mpr fun hmem => hk ((m.containsKey_iff k).mpr hmem)
    rw [if_neg hk, IndexMap.get_insert]
    by_cases he : k = k'
    · subst he
      rw [if_pos rfl, if_pos rfl, hnone, Option.none_or]
    · rw [if_neg (Ne.symm he), if_neg he, Option.or_none]

/-- The first module under a key. -/
def firstStored (modules : List (String × List UInt8)) (key : String) : Option (List UInt8) :=
  (modules.find? (·.1 == key)).map Prod.snd

theorem get_foldl (key : String) : ∀ (modules : List (String × List UInt8)) (n : Nat)
    (m : IndexMap String Nat),
    ((modules.zipIdx n).foldl (fun m p => orInsert m p.1.1 p.2) m).get key =
      (m.get key).or ((modules.findIdx? (·.1 == key)).map (· + n))
  | [], _, m => by simp
  | (k, chunk) :: modules, n, m => by
    rw [List.zipIdx_cons, List.foldl_cons, get_foldl key modules (n + 1), get_orInsert,
      Option.or_assoc, List.findIdx?_cons]
    by_cases he : k = key
    · rw [if_pos he, if_pos (beq_iff_eq.mpr he), Option.some_or, Option.map_some, Nat.zero_add]
    · rw [if_neg he, if_neg (mt beq_iff_eq.mp he), Option.none_or, Option.map_map]
      congr 3
      funext i
      exact (Nat.add_right_comm i 1 n).symm

theorem ModuleArchive.get_eq (a : ModuleArchive) (key : String) :
    a.get key = some (firstStored a.modules key) := by
  have hget : a.keyIndex.get key = a.modules.findIdx? (·.1 == key) := by
    rw [a.keyIndex_eq, indexKeys, get_foldl]
    simp [IndexMap.get, IndexMap.empty]
  unfold ModuleArchive.get firstStored
  rw [hget, List.find?_eq_bind_findIdx?_getElem?]
  cases hi : a.modules.findIdx? (·.1 == key) with
  | none => rfl
  | some i =>
    obtain ⟨hlt, -⟩ := List.findIdx?_eq_some_iff_getElem.mp hi
    simp [List.getElem?_eq_getElem hlt]

theorem writeLen_eq (h : n < 2 ^ 32) : writeLen n = le 4 n :=
  congrArg (le 4) (Nat.min_eq_left (Nat.le_pred_of_lt h))

namespace ModuleArchive

/-- The entry is a module, the decoder's limits are kept, and all lengths fit. -/
structure Fits (a : ModuleArchive) : Prop where
  entry : a.entry.toNat < a.modules.length
  count : a.modules.length ≤ maxModules
  modules : ∀ m ∈ a.modules, (utf8 m.1).length < 2 ^ 32 ∧ m.2.length < 2 ^ 32
  capsLen : a.caps.toBytes.length < 2 ^ 32
  fsScope : ∀ s ∈ a.caps.fsScope, s.Sized
  netScope : ∀ s ∈ a.caps.netScope, s.Sized

end ModuleArchive

namespace Archive

theorem module_takes {m : String × List UInt8} (hkey : (utf8 m.1).length < 2 ^ 32)
    (hchunk : m.2.length < 2 ^ 32) : Takes readModule (writeModule m) m := by
  rw [writeModule, writeLen_eq hkey, writeLen_eq hchunk, ← List.append_assoc]
  exact (Takes.str hkey).bind (Takes.bytes hchunk).map

theorem table_takes {a : ModuleArchive} (h : a.Fits) :
    Takes (readTable a.entry a.caps)
      (a.shakeDigest.val ++ (writeLen a.modules.length ++ a.modules.flatMap writeModule)) a := by
  have hcount : a.modules.length < 2 ^ 32 := Nat.lt_of_le_of_lt h.count (by decide)
  have hmodules : Takes (Scan.many readModule a.modules.length) (a.modules.flatMap writeModule)
      a.modules := .many fun m hm => module_takes (h.modules m hm).1 (h.modules m hm).2
  rw [writeLen_eq hcount]
  refine (Takes.array a.shakeDigest).bind ((Takes.word (by simpa using hcount)).bind ?_)
  rw [if_neg (Nat.not_lt.mpr h.count), if_neg (Nat.not_le.mpr h.entry)]
  refine hmodules.andThen ?_
  obtain ⟨entry, caps, digest, modules, _, rfl⟩ := a
  exact .pure _

theorem magic_takes : Takes (take archiveMagic.length) archiveMagic archiveMagic := .take

theorem read_takes {a : ModuleArchive} (h : a.Fits) : Takes read a.encode a := by
  have hcaps : CapSet.fromBytes a.caps.toBytes = .ok (a.caps, a.caps.toBytes.length) := by
    simpa using CapSet.fromBytes_toBytes h.fsScope h.netScope []
  rw [ModuleArchive.encode, writeLen_eq h.capsLen, ← List.append_assoc (le 4 a.caps.toBytes.length)]
  refine magic_takes.bind ?_
  simp only [ne_eq, not_true_eq_false, if_false]
  refine (Takes.word (by decide)).bind ?_
  simp only [not_true_eq_false, if_false]
  refine (Takes.word a.entry.toNat_lt).bind ((Takes.bytes h.capsLen).bind ?_)
  rw [hcaps, UInt32.ofNat_toNat]
  exact table_takes h

end Archive

end AScript.Bundle
