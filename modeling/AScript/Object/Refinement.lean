import AScript.Object.Storage

universe u v

namespace AScript.Object

open AScript.Lib

variable {K : Type u} {V : Type v} [DecidableEq K]

inductive Represents (reg : ShapeRegistry K) : ObjectCell K V → IndexMap K V → Prop
  | slab {m : IndexMap K V} : reg.keysOf shape = some m.keys →
      Represents reg ⟨.slab m.keys m.values, shape, frozen⟩ m
  | dict {m : IndexMap K V} : Represents reg ⟨.dict m, emptyShape, frozen⟩ m

namespace Represents

variable {reg reg' : ShapeRegistry K} {c d : ObjectCell K V} {m n : IndexMap K V}

theorem mono (hx : reg.Extends reg') (h : Represents reg c m) : Represents reg' c m := by
  cases h with
  | slab hs => exact .slab (hx _ _ hs)
  | dict => exact .dict

theorem len_eq (h : Represents reg c m) : c.storage.len = m.len := by
  cases h with
  | slab hs => exact m.length_values
  | dict => rfl

theorem getIndexOf_eq (h : Represents reg c m) (k : K) :
    c.storage.getIndexOf k = m.getIndexOf k := by
  cases h <;> rfl

theorem containsKey_eq (h : Represents reg c m) (k : K) :
    c.storage.containsKey k = m.containsKey k := by
  cases h <;> rfl

theorem keysSnapshot_eq (h : Represents reg c m) : c.storage.keysSnapshot = m.keys := by
  cases h <;> rfl

theorem entries_eq (h : Represents reg c m) : c.storage.entries = m.entries := by
  cases h with
  | slab hs => exact m.keys_zip_values
  | dict => rfl

theorem get_eq (h : Represents reg c m) (k : K) : c.storage.get k = m.get k := by
  cases h with
  | slab hs =>
    change (m.getIndexOf k).bind (m.values[·]?) = m.get k
    simp only [m.getElem?_values, m.get_eq_getIndex]
    cases m.getIndexOf k <;> rfl
  | dict => rfl

theorem valueAt_eq (h : Represents reg c m) (i : Nat) :
    c.storage.valueAt i = (m.getIndex i).map Prod.snd := by
  cases h with
  | slab hs => exact m.getElem?_values i
  | dict => rfl

theorem getIndex_eq (h : Represents reg c m) (i : Nat) :
    c.storage.getIndex i = m.getIndex i := by
  cases h with
  | slab hs =>
    simp only [ObjectStorage.getIndex, m.getElem?_values, m.getElem?_keys, m.length_values]
    cases hi : m.getIndex i with
    | none => simp
    | some e =>
      have hlt : i < m.len := (List.getElem?_eq_some_iff.mp hi).1
      simp [hlt]
  | dict => rfl

theorem setValueAt_fst (h : Represents reg c m) (i : Nat) (v : V) :
    (c.setValueAt i v).1 = decide (i < m.len) := by
  cases h <;>
    simp only [ObjectCell.setValueAt, ObjectStorage.setValueAt, m.length_values] <;>
    split <;> simp_all

theorem setValueAt_snd (h : Represents reg c m) (i : Nat) (v : V) :
    Represents reg (c.setValueAt i v).2 (m.setAt i v) := by
  cases h with
  | slab hs =>
    simp only [ObjectCell.setValueAt, ObjectStorage.setValueAt, m.length_values]
    split
    · rw [← m.values_setAt, ← m.keys_setAt i v]
      exact .slab (by rw [m.keys_setAt]; exact hs)
    · rename_i hle
      rw [IndexMap.setAt_of_le (Nat.le_of_not_lt hle)]
      exact .slab hs
  | dict =>
    simp only [ObjectCell.setValueAt, ObjectStorage.setValueAt]
    split
    · exact .dict
    · rename_i hle
      rw [IndexMap.setAt_of_le (Nat.le_of_not_lt hle)]
      exact .dict

theorem demoteToDict_storage (h : Represents reg c m) : c.storage.demoteToDict = .dict m := by
  cases h with
  | slab hs => simp [ObjectStorage.demoteToDict, m.keys_zip_values, m.ofPairs_entries]
  | dict => rfl

theorem demoteToDict (h : Represents reg c m) : Represents reg c.demoteToDict m := by
  rw [ObjectCell.demoteToDict, h.demoteToDict_storage]
  exact .dict

theorem demoted (h : Represents reg c m) :
    (if c.storage.isSlab then c.storage.demoteToDict else c.storage) = .dict m := by
  have hd := h.demoteToDict_storage
  cases h with
  | slab hs => exact hd
  | dict => rfl

theorem insert (h : Represents reg c m) (k : K) (v : V) :
    Represents reg (c.insert k v) (m.insert k v) := by
  cases hi : m.getIndexOf k with
  | some i =>
    have hk : c.storage.containsKey k = true := by
      rw [h.containsKey_eq, IndexMap.containsKey_iff]
      by_contra hn
      rw [(m.getIndexOf_eq_none k).mpr hn] at hi
      cases hi
    have := h.setValueAt_snd i v
    rw [IndexMap.insert_of_some hi]
    simpa [ObjectCell.insert, ObjectStorage.insert, h.getIndexOf_eq, hi, hk,
      ObjectCell.setValueAt] using this
  | none =>
    have hk : c.storage.containsKey k = false := by
      rw [h.containsKey_eq, ← Bool.not_eq_true, IndexMap.containsKey_iff]
      exact (m.getIndexOf_eq_none k).mp hi
    have hs : (if c.storage.isSlab && !c.storage.containsKey k then 0 else c.shape) = 0 := by
      rw [hk]
      cases h <;> rfl
    simp only [ObjectCell.insert, hs, ObjectStorage.insert, h.getIndexOf_eq, hi, h.demoted,
      ObjectStorage.dictInsert]
    exact .dict

theorem shiftRemove_fst (h : Represents reg c m) (k : K) : (c.shiftRemove k).1 = m.get k := by
  simp only [ObjectCell.shiftRemove, ObjectStorage.shiftRemove, h.demoted, IndexMap.shiftRemove]

theorem shiftRemove_snd (h : Represents reg c m) (k : K) :
    Represents reg (c.shiftRemove k).2 (m.shiftRemove k).2 := by
  have hs : (if c.storage.isSlab then 0 else c.shape) = 0 := by cases h <;> rfl
  simp only [ObjectCell.shiftRemove, ObjectStorage.shiftRemove, h.demoted, hs]
  exact .dict

theorem freeze (h : Represents reg c m) : Represents reg c.freeze m := by
  cases h with
  | slab hs => exact .slab hs
  | dict => exact .dict

theorem contentEq_eq [BEq V] (h : Represents reg c m) (h' : Represents reg d n) :
    c.contentEq d =
      (m.len == n.len && m.entries.all fun e => (n.get e.1).any (· == e.2)) := by
  simp only [ObjectCell.contentEq, h.len_eq, h'.len_eq, h.entries_eq, h'.get_eq]

theorem slabAppend (h : Represents reg c m) (hc : c.storage.isSlab = true) (hk : k ∉ m.keys)
    (hr : reg'.keysOf child = some (m.keys ++ [k])) (v : V) :
    ∃ c', c.slabAppend child (m.keys ++ [k]) v = (true, c') ∧
      Represents reg' c' (m.insert k v) := by
  cases h with
  | dict => cases hc
  | slab hs =>
    refine ⟨_, rfl, ?_⟩
    have he := IndexMap.entries_insert_of_not_mem hk v
    have hks : (m.insert k v).keys = m.keys ++ [k] := by simp [IndexMap.keys, he]
    have hvs : (m.insert k v).values = m.values ++ [v] := by simp [IndexMap.values, he]
    rw [← hks] at hr ⊢
    rw [← hvs]
    exact .slab hr

theorem layout_of_isSlab (h : Represents reg c m) (hc : c.storage.isSlab = true) :
    reg.keysOf c.shape = some m.keys := by
  cases h with
  | slab hs => exact hs
  | dict => cases hc

theorem vmObjectInsert (h : Represents reg c m) (k : K) (v : V) :
    ∃ reg' c', vmObjectInsert reg c k v = some (reg', c') ∧ reg.Extends reg' ∧
      Represents reg' c' (m.insert k v) := by
  unfold Object.vmObjectInsert
  rw [h.getIndexOf_eq]
  cases hi : m.getIndexOf k with
  | some i =>
    refine ⟨_, _, rfl, .refl _, ?_⟩
    rw [IndexMap.insert_of_some hi]
    exact h.setValueAt_snd i v
  | none =>
    by_cases hc : c.storage.isSlab = true
    · obtain ⟨r, reg', ha, hx, hr⟩ := reg.addKey_spec (h.layout_of_isSlab hc) k
      simp only [hc, if_true, ha]
      cases r with
      | some child =>
        have hk := (m.getIndexOf_eq_none k).mp hi
        obtain ⟨c', h₁, h₂⟩ := h.slabAppend hc hk (hr child rfl) v
        simp only [hr child rfl, h₁]
        exact ⟨_, _, rfl, hx, h₂⟩
      | none => exact ⟨_, _, rfl, hx, (h.demoteToDict.insert k v).mono hx⟩
    · simp only [hc]
      exact ⟨_, _, rfl, .refl _, h.insert k v⟩

end Represents

theorem literalOrder_eq (ps : List (K × V)) (vals : IndexMap K V) :
    literalOrder ps (vals.keys, vals) =
      ((ps.foldl (fun m p => m.insert p.1 p.2) vals).keys,
        ps.foldl (fun m p => m.insert p.1 p.2) vals) := by
  induction ps generalizing vals with
  | nil => rfl
  | cons p ps ih =>
    have hk : (if vals.containsKey p.1 then vals.keys else vals.keys ++ [p.1]) =
        (vals.insert p.1 p.2).keys := by
      rw [IndexMap.keys_insert]
      by_cases hm : p.1 ∈ vals.keys <;> simp [hm]
    rw [literalOrder, hk, ih]
    rfl

theorem takeValues_entries (es : List (K × V)) (h : (es.map Prod.fst).Nodup) :
    takeValues (es.map Prod.fst) ⟨es, h⟩ = some (es.map Prod.snd) := by
  induction es with
  | nil => rfl
  | cons e es ih =>
    rw [List.map_cons, takeValues]
    simp only [IndexMap.shiftRemove, IndexMap.get, List.find?_cons_of_pos, beq_self_eq_true,
      List.eraseP_cons_of_pos, Option.map_some]
    rw [ih (List.nodup_cons.mp h).2]
    rfl

theorem newObjectGeneric_spec (reg : ShapeRegistry K) (ps : List (K × V)) :
    ∃ reg' c, newObjectGeneric reg ps = some (reg', c) ∧ reg.Extends reg' ∧
      Represents reg' c (.ofPairs ps) := by
  have ho : literalOrder ps (([] : List K), (.empty : IndexMap K V)) =
      ((IndexMap.ofPairs ps).keys, .ofPairs ps) := literalOrder_eq ps .empty
  have ht : takeValues (IndexMap.ofPairs ps).keys (.ofPairs ps) =
      some (IndexMap.ofPairs ps).values := takeValues_entries _ (IndexMap.ofPairs ps).nodup
  obtain ⟨r, reg', hs, hx, hr⟩ := reg.shapeFor_spec (IndexMap.ofPairs ps).keys
  simp only [newObjectGeneric, ho, hs, ht]
  cases r with
  | some shape =>
    simp only [hr shape rfl]
    exact ⟨_, _, rfl, hx, .slab (hr shape rfl)⟩
  | none =>
    refine ⟨_, _, rfl, hx, ?_⟩
    rw [IndexMap.keys_zip_values, IndexMap.ofPairs_entries]
    exact .dict

end AScript.Object
