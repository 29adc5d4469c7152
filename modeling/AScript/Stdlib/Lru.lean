import AScript.Lib.IndexMapMoves
import AScript.Lib.LastUse
import AScript.Lib.Machine
import AScript.Runtime.Number

/-! The least-recently-used cache (`stdlib/lru.rs`) and a cache that writes down when each key was
last used. -/

namespace AScript.Stdlib

open AScript.Lib AScript.Runtime

variable {D O : Type}

/-- The entries stand in the order of their last use. -/
structure LruState (D O : Type) where
  map : IndexMap (MapKey D) (Value D O)
  capacity : Nat
  evictionCount : Nat

/-- The methods that look up or change, with their arguments; a missing argument is nil. -/
inductive LruCall (D O : Type)
  | get (key : Value D O)
  | set (key value : Value D O)
  | has (key : Value D O)
  | delete (key : Value D O)
  | clear

inductive LruReply (D O : Type)
  | value (v : Value D O)
  | panic (message : String)
  deriving DecidableEq

def unhashable (typeName : Value D O → String) (key : Value D O) : LruReply D O :=
  .panic ("lru.set: key type " ++ typeName key ++ " is not hashable")

namespace LruState

def new (capacity : Nat) : LruState D O := ⟨.empty, capacity, 0⟩

def len (s : LruState D O) : Nat := s.map.len

def keys (s : LruState D O) : List (Value D O) := s.map.keys.map MapKey.toValue

def evict : Nat → LruState D O → LruState D O
  | 0, s => s
  | fuel + 1, s =>
    if s.capacity ≤ s.map.len ∧ s.map.len ≠ 0 then
      evict fuel { s with
        map := s.map.shiftRemoveIndex 0
        evictionCount := s.evictionCount + 1 }
    else s

variable [DecidableEq D]

def touch (s : LruState D O) (key : MapKey D) : LruState D O :=
  match s.map.getIndexOf key with
  | some idx =>
    let last := s.map.len - 1
    if idx ≠ last then { s with map := s.map.moveIndex idx last } else s
  | none => s

def get (s : LruState D O) (key : Value D O) : LruReply D O × LruState D O :=
  match MapKey.fromValue key with
  | none => (.value .nil, s)
  | some k =>
    if s.map.containsKey k then
      let s := s.touch k
      (.value ((s.map.get k).getD .nil), s)
    else (.value .nil, s)

def set (typeName : Value D O → String) (s : LruState D O) (key val : Value D O) :
    LruReply D O × LruState D O :=
  match MapKey.fromValue key with
  | none => (unhashable typeName key, s)
  | some k =>
    if s.map.containsKey k then
      (.value .nil, touch { s with map := s.map.insert k val } k)
    else
      let s := s.evict s.map.len
      (.value .nil, { s with map := s.map.insert k val })

def has (s : LruState D O) (key : Value D O) : Bool :=
  match MapKey.fromValue key with
  | none => false
  | some k => s.map.containsKey k

def delete (s : LruState D O) (key : Value D O) : LruReply D O × LruState D O :=
  match MapKey.fromValue key with
  | none => (.value (.bool false), s)
  | some k =>
    let (removed, map) := s.map.shiftRemove k
    (.value (.bool removed.isSome), { s with map := map })

def clear (s : LruState D O) : LruState D O := { s with map := .empty }

def machine (typeName : Value D O → String) :
    Machine (LruState D O) (LruCall D O) (LruReply D O) where
  step s
    | .get key => s.get key
    | .set key val => s.set typeName key val
    | .has key => some (.value (.bool (s.has key)), s)
    | .delete key => s.delete key
    | .clear => some (.value .nil, s.clear)

end LruState

namespace LastUse

variable [DecidableEq D]

abbrev Cache (D O : Type) := Stamped (MapKey D) (Value D O)

def get (c : Cache D O) (key : Value D O) : LruReply D O × Cache D O :=
  match MapKey.fromValue key with
  | none => (.value .nil, c)
  | some k => if k ∈ c.live then (.value (c.value k), c.use k) else (.value .nil, c)

def set (typeName : Value D O → String) (capacity : Nat) (c : Cache D O) (key val : Value D O) :
    LruReply D O × Cache D O :=
  match MapKey.fromValue key with
  | none => (unhashable typeName key, c)
  | some k =>
    let c := if k ∉ c.live ∧ c.live.card = capacity then c.dropOldest else c
    (.value .nil, c.put k val)

def has (c : Cache D O) (key : Value D O) : Bool :=
  match MapKey.fromValue key with
  | none => false
  | some k => k ∈ c.live

def delete (c : Cache D O) (key : Value D O) : LruReply D O × Cache D O :=
  match MapKey.fromValue key with
  | none => (.value (.bool false), c)
  | some k => (.value (.bool (k ∈ c.live)), c.remove k)

def answer (typeName : Value D O → String) (capacity : Nat) (c : Cache D O) :
    LruCall D O → LruReply D O × Cache D O
  | .get key => get c key
  | .set key val => set typeName capacity c key val
  | .has key => (.value (.bool (has c key)), c)
  | .delete key => delete c key
  | .clear => (.value .nil, c.clear)

/-- The time is the number of calls so far. -/
def machine (typeName : Value D O → String) (capacity : Nat) :
    Machine (Cache D O) (LruCall D O) (LruReply D O) where
  step c call :=
    let (reply, c) := answer typeName capacity c call
    some (reply, c.tick)

end LastUse

namespace LruState

structure Refines [DecidableEq D] (n : Nat) (s : LruState D O) (c : LastUse.Cache D O) : Prop where
  capacity : s.capacity = n
  order : Stamped.Orders s.map.keys c
  values : ∀ k ∈ c.live, s.map.get k = some (c.value k)
  len : s.map.len ≤ n
  evictions : s.evictionCount = c.drops

variable [DecidableEq D] {s : LruState D O} {c : LastUse.Cache D O}

theorem keys_touch (hk : k ∈ s.map.keys) : (s.touch k).map.keys = s.map.keys.erase k ++ [k] := by
  unfold touch
  cases hidx : s.map.getIndexOf k with
  | none => exact absurd hk ((s.map.getIndexOf_eq_none k).mp hidx)
  | some idx =>
    dsimp only
    split
    next => exact IndexMap.keys_moveIndex_last hidx
    next hlast =>
      obtain ⟨hlt, hkey, -⟩ := List.findIdx?_eq_some_iff_getElem.mp hidx
      have hidx' : idx = s.map.keys.length - 1 := by
        rw [IndexMap.length_keys]
        exact not_not.mp hlast
      rw [IndexMap.keys_erase hidx, ← beq_iff_eq.mp hkey, List.eraseIdx_eq_dropLast (by omega)]
      simp only [hidx', ← List.getLast_eq_getElem (List.ne_nil_of_mem hk)]
      exact (List.dropLast_append_getLast _).symm

theorem get_touch (s : LruState D O) (k j : MapKey D) : (s.touch k).map.get j = s.map.get j := by
  unfold touch
  cases s.map.getIndexOf k with
  | none => rfl
  | some idx =>
    dsimp only
    split
    next => exact s.map.get_moveIndex idx _ j
    next => rfl

theorem touch_counts (s : LruState D O) (k : MapKey D) :
    (s.touch k).capacity = s.capacity ∧ (s.touch k).evictionCount = s.evictionCount := by
  unfold touch
  split
  next => dsimp only; split <;> exact ⟨rfl, rfl⟩
  next => exact ⟨rfl, rfl⟩

omit [DecidableEq D] in
theorem evict_of_lt (h : s.map.len < s.capacity) (fuel : Nat) : s.evict fuel = s := by
  cases fuel with
  | zero => rfl
  | succ fuel => exact if_neg fun hc => Nat.not_le_of_lt h hc.1

omit [DecidableEq D] in
theorem evict_of_full (h : s.map.len = s.capacity) (hpos : 1 ≤ s.capacity) :
    s.evict s.map.len = { s with
      map := s.map.shiftRemoveIndex 0
      evictionCount := s.evictionCount + 1 } := by
  obtain ⟨fuel, hfuel⟩ : ∃ fuel, s.map.len = fuel + 1 := ⟨s.map.len - 1, by omega⟩
  have hlen : (s.map.shiftRemoveIndex 0).len = fuel := by
    rw [← IndexMap.length_keys, IndexMap.keys_shiftRemoveIndex, List.length_eraseIdx_of_lt] <;>
      rw [IndexMap.length_keys] <;> omega
  rw [hfuel, evict, if_pos (by omega)]
  refine evict_of_lt ?_ fuel
  change (s.map.shiftRemoveIndex 0).len < s.capacity
  omega

namespace Refines

theorem new (n : Nat) : Refines n (LruState.new n : LruState D O) (Stamped.empty .nil) where
  capacity := rfl
  order := .empty _
  values k hk := absurd hk (Finset.notMem_empty k)
  len := Nat.zero_le n
  evictions := rfl

theorem tick (h : Refines n s c) : Refines n s c.tick := { h with order := h.order.tick }

theorem contains (h : Refines n s c) (k : MapKey D) :
    s.map.containsKey k = true ↔ k ∈ c.live := by
  rw [IndexMap.containsKey_iff, h.order.mem]

theorem use (h : Refines n s c) (hk : k ∈ c.live) : Refines n (s.touch k) (c.use k).tick := by
  have hkeys := keys_touch ((h.order.mem k).mpr hk)
  obtain ⟨hcap, hcount⟩ := s.touch_counts k
  refine ⟨hcap.trans h.capacity, ?_, fun j hj => (s.get_touch k j).trans (h.values j hj), ?_,
    hcount.trans h.evictions⟩
  · rw [hkeys]
    exact h.order.use ((h.order.mem k).mpr hk)
  · rw [← IndexMap.length_keys, hkeys, List.length_append, List.length_erase_of_mem
      ((h.order.mem k).mpr hk), List.length_singleton]
    have hlen := h.len
    have hpos := List.length_pos_of_mem ((h.order.mem k).mpr hk)
    rw [← IndexMap.length_keys] at hlen
    omega

theorem update (h : Refines n s c) (hk : k ∈ c.live) (v : Value D O) :
    Refines n (touch { s with map := s.map.insert k v } k) (c.put k v).tick := by
  have hkeys : (s.map.insert k v).keys = s.map.keys := by
    rw [IndexMap.keys_insert, if_pos ((h.order.mem k).mpr hk)]
  have hins : Refines n { s with map := s.map.insert k v }
      { c with value := Function.update c.value k v } := by
    refine ⟨h.capacity, ⟨?_, ?_, ?_⟩, fun j hj => ?_, ?_, h.evictions⟩
    · rw [hkeys]
      exact h.order.mem
    · rw [hkeys]
      exact h.order.sorted
    · rw [hkeys]
      exact h.order.past
    · change _ = some (Function.update c.value k v j)
      rw [IndexMap.get_insert, Function.update_apply]
      split
      next => rfl
      next => exact h.values j hj
    · rw [← IndexMap.length_keys, hkeys, IndexMap.length_keys]
      exact h.len
  have hput : (c.put k v).tick =
      (Stamped.use { c with value := Function.update c.value k v } k).tick := by
    rw [Stamped.put, Finset.insert_eq_of_mem hk]
    rfl
  rw [hput]
  exact hins.use hk

theorem add (h : Refines n s c) (hk : k ∉ c.live) (hroom : s.map.len < n) (v : Value D O) :
    Refines n { s with map := s.map.insert k v } (c.put k v).tick := by
  have hmem : k ∉ s.map.keys := fun hm => hk ((h.order.mem k).mp hm)
  have hkeys : (s.map.insert k v).keys = s.map.keys.erase k ++ [k] := by
    rw [IndexMap.keys_insert, if_neg hmem, List.erase_of_not_mem hmem]
  refine ⟨h.capacity, ?_, fun j hj => ?_, ?_, h.evictions⟩
  · rw [hkeys]
    exact h.order.put k v
  · change _ = some (Function.update c.value k v j)
    rw [IndexMap.get_insert, Function.update_apply]
    split
    next => rfl
    next hne => exact h.values j ((Finset.mem_insert.mp hj).resolve_left hne)
  · rw [← IndexMap.length_keys, hkeys, List.erase_of_not_mem hmem, List.length_append,
      IndexMap.length_keys, List.length_singleton]
    exact hroom

theorem room (h : Refines n s c) (hn : 1 ≤ n) :
    Refines n (s.evict s.map.len) (if c.live.card = n then c.dropOldest else c) ∧
      (s.evict s.map.len).map.len < n := by
  have hcard : s.map.len = c.live.card := by rw [← IndexMap.length_keys, h.order.card]
  have hlen := h.len
  split
  next hfull =>
    have hcap : s.map.len = s.capacity := by rw [hcard, hfull, h.capacity]
    obtain ⟨k, keys, hkeys⟩ : ∃ k keys, s.map.keys = k :: keys := by
      refine List.exists_cons_of_length_pos ?_
      rw [IndexMap.length_keys]
      omega
    have hrest : (s.map.shiftRemoveIndex 0).keys = keys := by
      rw [IndexMap.keys_shiftRemoveIndex, hkeys, List.eraseIdx_cons_zero]
    have hshort : (s.map.shiftRemoveIndex 0).len < n := by
      have hsize := congrArg List.length hkeys
      rw [IndexMap.length_keys, List.length_cons] at hsize
      rw [← IndexMap.length_keys, hrest]
      omega
    have hdrop : Stamped.Orders keys c.dropOldest := (hkeys ▸ h.order).dropOldest
    rw [evict_of_full hcap (h.capacity ▸ hn)]
    refine ⟨⟨h.capacity, hrest.symm ▸ hdrop, fun j hj => ?_, hshort.le, ?_⟩, hshort⟩
    · rw [IndexMap.get_shiftRemoveIndex_zero (by rw [hrest]; exact (hdrop.mem j).mpr hj)]
      exact h.values j (Finset.mem_of_mem_filter j hj)
    · exact congrArg (· + 1) h.evictions
  next hfull =>
    have hroom : s.map.len < n := by omega
    rw [evict_of_lt (h.capacity ▸ hroom)]
    exact ⟨h, hroom⟩

theorem remove (h : Refines n s c) (k : MapKey D) :
    Refines n { s with map := (s.map.shiftRemove k).2 } (c.remove k) := by
  have hkeys := s.map.keys_shiftRemove k
  refine ⟨h.capacity, ?_, fun j hj => ?_, ?_, h.evictions⟩
  · rw [hkeys]
    exact h.order.remove k
  · obtain ⟨hne, hj⟩ := Finset.mem_erase.mp hj
    rw [IndexMap.get_shiftRemove_of_ne _ hne]
    exact h.values j hj
  · rw [← IndexMap.length_keys, hkeys]
    refine Nat.le_trans (List.erase_sublist).length_le ?_
    rw [IndexMap.length_keys]
    exact h.len

theorem clear (h : Refines n s c) : Refines n s.clear c.clear :=
  ⟨h.capacity, .clear, fun k hk => absurd hk (Finset.notMem_empty k), Nat.zero_le n, h.evictions⟩

end Refines

variable (typeName : Value D O → String)

theorem machine_simulates (hn : 1 ≤ n) :
    (machine typeName : Machine (LruState D O) _ _).Simulates (LastUse.machine typeName n)
      (Refines n) := by
  intro s c call h
  cases call with
  | get key =>
    simp only [machine, LastUse.machine, LastUse.answer, LruState.get, LastUse.get]
    cases MapKey.fromValue key with
    | none => exact ⟨rfl, h.tick⟩
    | some k =>
      by_cases hk : k ∈ c.live
      · simp only [if_pos hk, if_pos ((h.contains k).mpr hk)]
        refine ⟨?_, h.use hk⟩
        rw [get_touch, h.values k hk]
        rfl
      · simp only [if_neg hk, if_neg (mt (h.contains k).mp hk)]
        exact ⟨rfl, h.tick⟩
  | set key v =>
    simp only [machine, LastUse.machine, LastUse.answer, LruState.set, LastUse.set]
    cases MapKey.fromValue key with
    | none => exact ⟨rfl, h.tick⟩
    | some k =>
      by_cases hk : k ∈ c.live
      · simp only [if_pos ((h.contains k).mpr hk), hk, not_true, false_and, if_false]
        exact ⟨rfl, h.update hk v⟩
      · simp only [if_neg (mt (h.contains k).mp hk), hk, not_false_iff, true_and]
        obtain ⟨hroom, hlt⟩ := h.room hn
        refine ⟨rfl, hroom.add ?_ hlt v⟩
        split
        next => exact fun hm => hk (Finset.mem_of_mem_filter k hm)
        next => exact hk
  | has key =>
    have hhas : s.has key = LastUse.has c key := by
      unfold LruState.has LastUse.has
      cases MapKey.fromValue key with
      | none => rfl
      | some k => exact Bool.eq_iff_iff.mpr ((h.contains k).trans (decide_eq_true_iff).symm)
    exact ⟨by rw [hhas], h.tick⟩
  | delete key =>
    simp only [machine, LastUse.machine, LastUse.answer, LruState.delete, LastUse.delete]
    cases MapKey.fromValue key with
    | none => exact ⟨rfl, h.tick⟩
    | some k =>
      refine ⟨?_, (h.remove k).tick⟩
      have hsome : (s.map.get k).isSome = decide (k ∈ c.live) := by
        rw [Bool.eq_iff_iff, IndexMap.isSome_get_iff, h.order.mem, decide_eq_true_iff]
      exact congrArg (fun b => LruReply.value (.bool b)) hsome
  | clear => exact ⟨rfl, h.clear.tick⟩

theorem run_answers (s : LruState D O) (calls : List (LruCall D O)) :
    ∃ answers s', (machine typeName).run s calls = some (answers, s') := by
  induction calls generalizing s with
  | nil => exact ⟨[], s, rfl⟩
  | cons call calls ih =>
    obtain ⟨reply, s₁, hstep⟩ : ∃ reply s₁, (machine typeName).step s call = some (reply, s₁) := by
      cases call <;> exact ⟨_, _, rfl⟩
    obtain ⟨answers, s', hrun⟩ := ih s₁
    exact ⟨reply :: answers, s', by simp only [Machine.run, hstep, hrun, Option.map_some]⟩

/-- Over every sequence of calls on a cache with room for at least one entry: the answers and
the entries are those of the reference, the keys stand in the order of their last use, there are
no more than fit, the evictions are the keys dropped, and a look with `has` changes nothing. -/
theorem lru_refines (n : Nat) (hn : 1 ≤ n) (calls : List (LruCall D O)) :
    ∃ answers s c,
      (machine typeName).run (new n) calls = some (answers, s) ∧
      (LastUse.machine typeName n).run (.empty .nil) calls = some (answers, c) ∧
      (∀ k, s.map.get k = if k ∈ c.live then some (c.value k) else none) ∧
      (∃ ks : List (MapKey D), s.keys = ks.map MapKey.toValue ∧ (∀ k, k ∈ ks ↔ k ∈ c.live) ∧
        ks.Pairwise fun j k => c.lastUse j < c.lastUse k) ∧
      s.len ≤ n ∧
      s.evictionCount = c.drops ∧
      ∀ key, (machine typeName).step s (.has key) = some (.value (.bool (s.has key)), s) := by
  obtain ⟨answers, s, hrun⟩ := run_answers typeName (new n) calls
  obtain ⟨c, href, h⟩ := ((machine_simulates typeName hn).run (.new n) calls).related hrun
  refine ⟨answers, s, c, hrun, href, fun k => ?_, ⟨_, rfl, h.order.mem, h.order.sorted⟩, h.len,
    h.evictions, fun _ => rfl⟩
  split
  next hk => exact h.values k hk
  next hk => exact (s.map.get_eq_none k).mpr (mt (h.order.mem k).mp hk)

/-- A third key in a cache for two. -/
def promotion : List (LruCall Nat Nat) :=
  [.set (.str "a") .nil, .set (.str "b") .nil, .get (.str "a"), .set (.str "c") .nil]

theorem lru_refines_promotion :
    ∃ answers s, (machine fun _ => "").run (new 2) promotion = some (answers, s) ∧ s.len ≤ 2 := by
  obtain ⟨answers, s, c, hrun, -, -, -, hlen, -⟩ :=
    lru_refines (fun _ => "") 2 (by decide) promotion
  exact ⟨answers, s, hrun, hlen⟩

example : ((machine fun _ => "").run (new 2) promotion).map
    (fun r => (r.2.keys, r.2.evictionCount)) =
    some ([.str "a", .str "c"], 1) := by decide

end LruState

end AScript.Stdlib
