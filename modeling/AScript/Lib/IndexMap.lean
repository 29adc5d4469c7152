import Mathlib.Data.List.Basic
import Mathlib.Data.List.Nodup

universe u v

namespace AScript.Lib

/-- An insertion-ordered dictionary. Overwriting keeps a key's position, a new key
goes last, removal closes the gap. -/
@[ext] structure IndexMap (K : Type u) (V : Type v) where
  entries : List (K × V)
  nodup : (entries.map Prod.fst).Nodup

namespace IndexMap

variable {K : Type u} {V : Type v}

def empty : IndexMap K V := ⟨[], .nil⟩

instance : Inhabited (IndexMap K V) := ⟨empty⟩

def keys (m : IndexMap K V) : List K := m.entries.map Prod.fst

def values (m : IndexMap K V) : List V := m.entries.map Prod.snd

def len (m : IndexMap K V) : Nat := m.entries.length

def getIndex (m : IndexMap K V) (i : Nat) : Option (K × V) := m.entries[i]?

@[simp] theorem keys_empty : (empty : IndexMap K V).keys = [] := rfl

@[simp] theorem length_keys (m : IndexMap K V) : m.keys.length = m.len := by
  simp [keys, len]

def mapValues (f : V → W) (m : IndexMap K V) : IndexMap K W :=
  ⟨m.entries.map fun e => (e.1, f e.2), by rw [List.map_map]; exact m.nodup⟩

theorem keys_nodup (m : IndexMap K V) : m.keys.Nodup := m.nodup

theorem map_fst_modify (es : List (K × V)) (i : Nat) (v : V) :
    (es.modify i (fun e => (e.1, v))).map Prod.fst = es.map Prod.fst := by
  induction es generalizing i with
  | nil => simp
  | cons e es ih =>
    cases i with
    | zero => simp
    | succ i => simp [ih]

def setAt (m : IndexMap K V) (i : Nat) (v : V) : IndexMap K V :=
  ⟨m.entries.modify i (fun e => (e.1, v)), by rw [map_fst_modify]; exact m.nodup⟩

@[simp] theorem keys_setAt (m : IndexMap K V) (i : Nat) (v : V) : (m.setAt i v).keys = m.keys :=
  map_fst_modify _ _ _

@[simp] theorem len_setAt (m : IndexMap K V) (i : Nat) (v : V) : (m.setAt i v).len = m.len := by
  simp [setAt, len]

theorem values_setAt (m : IndexMap K V) (i : Nat) (v : V) :
    (m.setAt i v).values = m.values.set i v := by
  simp only [values, setAt]
  generalize m.entries = es
  induction es generalizing i with
  | nil => simp
  | cons e es ih =>
    cases i with
    | zero => simp
    | succ i => simp [ih]

theorem setAt_of_le {m : IndexMap K V} (h : m.len ≤ i) (v : V) : m.setAt i v = m := by
  ext1
  exact List.modify_eq_self h

@[simp] theorem length_values (m : IndexMap K V) : m.values.length = m.len := by
  simp [values, len]

theorem keys_zip_values (m : IndexMap K V) : m.keys.zip m.values = m.entries := by
  simp [keys, values, List.zip_map']

theorem getElem?_values (m : IndexMap K V) (i : Nat) :
    m.values[i]? = (m.getIndex i).map Prod.snd := by
  simp [values, getIndex]

theorem getElem?_keys (m : IndexMap K V) (i : Nat) :
    m.keys[i]? = (m.getIndex i).map Prod.fst := by
  simp [keys, getIndex]

variable [DecidableEq K]

def getIndexOf (m : IndexMap K V) (k : K) : Option Nat := m.keys.findIdx? (· == k)

def get (m : IndexMap K V) (k : K) : Option V := (m.entries.find? (·.1 == k)).map Prod.snd

def containsKey (m : IndexMap K V) (k : K) : Bool := m.keys.any (· == k)

@[simp] theorem containsKey_iff (m : IndexMap K V) (k : K) : m.containsKey k = true ↔
    k ∈ m.keys := by
  simp [containsKey]

theorem getIndexOf_eq_none (m : IndexMap K V) (k : K) : m.getIndexOf k = none ↔ k ∉ m.keys := by
  simp only [getIndexOf, List.findIdx?_eq_none_iff, beq_eq_false_iff_ne]
  exact ⟨fun h hk => h k hk rfl, fun h a ha hak => h (hak ▸ ha)⟩

def push (m : IndexMap K V) (k : K) (v : V) (h : k ∉ m.keys) : IndexMap K V :=
  ⟨m.entries ++ [(k, v)], by
    rw [List.map_append, List.nodup_append]
    refine ⟨m.nodup, by simp, ?_⟩
    intro a ha b hb hab
    simp only [List.map_cons, List.map_nil, List.mem_singleton] at hb
    exact h (by rw [← hb, ← hab]; exact ha)⟩

def insert (m : IndexMap K V) (k : K) (v : V) : IndexMap K V :=
  match h : m.getIndexOf k with
  | some i => m.setAt i v
  | none => m.push k v ((m.getIndexOf_eq_none k).mp h)

def shiftRemove (m : IndexMap K V) (k : K) : Option V × IndexMap K V :=
  (m.get k, ⟨m.entries.eraseP (·.1 == k), (m.nodup.sublist ((List.eraseP_sublist).map _))⟩)

def ofPairs (ps : List (K × V)) : IndexMap K V := ps.foldl (fun m p => m.insert p.1 p.2) empty

theorem insert_of_some {m : IndexMap K V} (h : m.getIndexOf k = some i) (v : V) :
    m.insert k v = m.setAt i v := by
  unfold insert
  split
  · rename_i j hj
    rw [h] at hj
    cases hj
    rfl
  · rename_i hn
    rw [h] at hn
    cases hn

theorem entries_insert_of_not_mem {m : IndexMap K V} (h : k ∉ m.keys) (v : V) :
    (m.insert k v).entries = m.entries ++ [(k, v)] := by
  have hn := (m.getIndexOf_eq_none k).mpr h
  unfold insert
  split
  · rename_i j hj
    rw [hn] at hj
    cases hj
  · rfl

theorem find?_modify {es : List (K × V)} {k : K} {i : Nat}
    (h : (es.map Prod.fst).findIdx? (· == k) = some i) (v : V) (k' : K) :
    (es.modify i (fun e => (e.1, v))).find? (·.1 == k') =
      if k' = k then some (k, v) else es.find? (·.1 == k') := by
  induction es generalizing i with
  | nil => simp at h
  | cons e es ih =>
    rw [List.map_cons, List.findIdx?_cons] at h
    by_cases hek : e.1 = k
    · rw [if_pos (by simpa using hek)] at h
      cases h
      by_cases hk : k' = k
      · simp [hek, hk]
      · have hne : ¬ e.1 = k' := fun h' => hk (h'.symm.trans hek)
        simp [hk, hne]
    · rw [if_neg (by simpa using hek)] at h
      obtain ⟨j, hj, rfl⟩ := Option.map_eq_some_iff.mp h
      rw [List.modify_succ_cons, List.find?_cons, ih hj, List.find?_cons]
      by_cases hk : k' = k
      · have hb : (e.1 == k) = false := by simpa using hek
        simp [hk, hb]
      · simp only [hk, if_false]

theorem get_eq_none (m : IndexMap K V) (k : K) : m.get k = none ↔ k ∉ m.keys := by
  simp only [get, Option.map_eq_none_iff, List.find?_eq_none, keys, List.mem_map, beq_iff_eq]
  exact ⟨fun h ⟨e, he, hk⟩ => h e he hk, fun h e he hk => h ⟨e, he, hk⟩⟩

theorem get_insert (m : IndexMap K V) (k k' : K) (v : V) :
    (m.insert k v).get k' = if k' = k then some v else m.get k' := by
  cases h : m.getIndexOf k with
  | some i =>
    rw [insert_of_some h]
    simp only [get, setAt, find?_modify h]
    by_cases hk : k' = k <;> simp [hk]
  | none =>
    have hm := (m.getIndexOf_eq_none k).mp h
    simp only [get, entries_insert_of_not_mem hm, List.find?_append]
    by_cases hk : k' = k
    · have hn := (m.get_eq_none k).mpr hm
      rw [get, Option.map_eq_none_iff] at hn
      simp [hk, hn]
    · have hne : ¬ k = k' := fun h' => hk h'.symm
      simp [hk, hne]

theorem find?_eq_bind (es : List (K × V)) (k : K) :
    es.find? (·.1 == k) = ((es.map Prod.fst).findIdx? (· == k)).bind (es[·]?) := by
  induction es with
  | nil => rfl
  | cons e es ih =>
    rw [List.map_cons, List.findIdx?_cons, List.find?_cons]
    by_cases hk : e.1 = k
    · simp [hk]
    · have hb : (e.1 == k) = false := by simpa using hk
      simp only [hb, ih, Bool.false_eq_true, if_false, Option.bind_map]
      congr 1

theorem get_eq_getIndex (m : IndexMap K V) (k : K) :
    m.get k = ((m.getIndexOf k).bind m.getIndex).map Prod.snd :=
  congrArg _ (find?_eq_bind m.entries k)

theorem keys_insert (m : IndexMap K V) (k : K) (v : V) :
    (m.insert k v).keys = if k ∈ m.keys then m.keys else m.keys ++ [k] := by
  cases h : m.getIndexOf k with
  | some i =>
    have hm : k ∈ m.keys := by
      by_contra hn
      rw [(m.getIndexOf_eq_none k).mpr hn] at h
      cases h
    rw [insert_of_some h, keys_setAt, if_pos hm]
  | none =>
    have hm := (m.getIndexOf_eq_none k).mp h
    rw [if_neg hm, keys, entries_insert_of_not_mem hm, List.map_append]
    rfl

theorem foldl_insert_entries (ps : List (K × V)) (m : IndexMap K V)
    (h : ((m.entries ++ ps).map Prod.fst).Nodup) :
    (ps.foldl (fun m p => m.insert p.1 p.2) m).entries = m.entries ++ ps := by
  induction ps generalizing m with
  | nil => simp
  | cons p ps ih =>
    have hp : p.1 ∉ m.keys := by
      intro hm
      rw [List.map_append, List.nodup_append] at h
      exact h.2.2 p.1 hm p.1 (by simp) rfl
    have he := entries_insert_of_not_mem hp p.2
    rw [List.foldl_cons, ih (m.insert p.1 p.2) (by rw [he]; simpa using h), he]
    simp

theorem ofPairs_entries (m : IndexMap K V) : ofPairs m.entries = m := by
  ext1
  exact foldl_insert_entries m.entries empty m.nodup

theorem mem_keys_foldl_insert (ps : List (K × V)) (m : IndexMap K V) (k : K) :
    k ∈ (ps.foldl (fun m p => m.insert p.1 p.2) m).keys ↔ k ∈ m.keys ∨ k ∈ ps.map Prod.fst := by
  induction ps generalizing m with
  | nil => simp
  | cons p ps ih =>
    rw [List.foldl_cons, ih, keys_insert, List.map_cons, List.mem_cons]
    by_cases hp : p.1 ∈ m.keys
    · rw [if_pos hp]
      constructor
      · exact Or.imp_right .inr
      · rintro (h | rfl | h)
        · exact .inl h
        · exact .inl hp
        · exact .inr h
    · rw [if_neg hp, List.mem_append, List.mem_singleton, or_assoc]

theorem mem_keys_ofPairs (ps : List (K × V)) (k : K) :
    k ∈ (ofPairs ps).keys ↔ k ∈ ps.map Prod.fst := by
  rw [ofPairs, mem_keys_foldl_insert]
  simp

theorem isSome_get_iff (m : IndexMap K V) (k : K) : (m.get k).isSome ↔ k ∈ m.keys := by
  rw [Option.isSome_iff_ne_none, ne_eq, get_eq_none, not_not]

end IndexMap
end AScript.Lib
