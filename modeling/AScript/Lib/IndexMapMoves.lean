import AScript.Lib.IndexMap
import Mathlib.Data.List.InsertIdx
import Mathlib.Data.List.Perm.Basic

universe u v

namespace AScript.Lib.IndexMap

variable {K : Type u} {V : Type v} {m m' : IndexMap K V}

theorem perm_insertIdx_eraseIdx {es : List α} (hi : i < es.length) (hj : j < es.length) :
    ((es.eraseIdx i).insertIdx j es[i]).Perm es := by
  have hlen : j ≤ (es.eraseIdx i).length := by
    rw [List.length_eraseIdx_of_lt hi]
    omega
  exact (List.perm_insertIdx _ _ hlen).trans (List.getElem_cons_eraseIdx_perm hi)

def moveIndex (m : IndexMap K V) (i j : Nat) : IndexMap K V :=
  if h : i < m.entries.length ∧ j < m.entries.length then
    ⟨(m.entries.eraseIdx i).insertIdx j m.entries[i],
      ((perm_insertIdx_eraseIdx h.1 h.2).map Prod.fst).nodup_iff.mpr m.nodup⟩
  else m

def shiftRemoveIndex (m : IndexMap K V) (i : Nat) : IndexMap K V :=
  ⟨m.entries.eraseIdx i, m.nodup.sublist ((List.eraseIdx_sublist _ _).map _)⟩

theorem moveIndex_perm (m : IndexMap K V) (i j : Nat) :
    (m.moveIndex i j).entries.Perm m.entries := by
  unfold moveIndex
  split
  next h => exact perm_insertIdx_eraseIdx h.1 h.2
  next => exact .refl _

theorem keys_shiftRemoveIndex (m : IndexMap K V) (i : Nat) :
    (m.shiftRemoveIndex i).keys = m.keys.eraseIdx i :=
  (List.eraseIdx_map Prod.fst m.entries i).symm

variable [DecidableEq K]

theorem find?_of_nodup {es : List (K × V)} (hnd : (es.map Prod.fst).Nodup) (h : (k, v) ∈ es) :
    es.find? (·.1 == k) = some (k, v) := by
  induction es with
  | nil => cases h
  | cons e es ih =>
    obtain ⟨hhead, htail⟩ := List.nodup_cons.mp hnd
    rcases List.mem_cons.mp h with rfl | h
    · exact List.find?_cons_of_pos (by simp)
    · have hne : ¬ e.1 = k := fun he => hhead (he ▸ List.mem_map_of_mem h)
      rw [List.find?_cons_of_neg (by simpa using hne)]
      exact ih htail h

theorem get_eq_some (m : IndexMap K V) (k : K) (v : V) :
    m.get k = some v ↔ (k, v) ∈ m.entries := by
  constructor
  · intro h
    obtain ⟨e, he, rfl⟩ := Option.map_eq_some_iff.mp h
    obtain rfl : e.1 = k := by simpa using List.find?_some he
    exact List.mem_of_find?_eq_some he
  · intro h
    rw [get, find?_of_nodup m.nodup h]
    rfl

theorem get_congr (h : ∀ v, (k, v) ∈ m.entries ↔ (k, v) ∈ m'.entries) : m.get k = m'.get k := by
  ext v
  rw [get_eq_some, get_eq_some, h]

theorem get_moveIndex (m : IndexMap K V) (i j : Nat) (k : K) :
    (m.moveIndex i j).get k = m.get k :=
  get_congr fun _ => (m.moveIndex_perm i j).mem_iff

theorem keys_erase (h : m.getIndexOf k = some i) : m.keys.erase k = m.keys.eraseIdx i := by
  rw [List.erase_eq_eraseIdx, show m.keys.idxOf? k = some i from h]

theorem keys_moveIndex_last (h : m.getIndexOf k = some i) :
    (m.moveIndex i (m.len - 1)).keys = m.keys.erase k ++ [k] := by
  obtain ⟨hi, hkey, -⟩ := List.findIdx?_eq_some_iff_getElem.mp h
  have hlt : i < m.entries.length := by rwa [← len, ← length_keys]
  have hfst : m.entries[i].1 = k := (List.getElem_map _).symm.trans (beq_iff_eq.mp hkey)
  have hin : i < m.entries.length ∧ m.len - 1 < m.entries.length :=
    ⟨hlt, Nat.sub_lt (Nat.zero_lt_of_lt hlt) Nat.one_pos⟩
  have hentries : (m.moveIndex i (m.len - 1)).entries =
      (m.entries.eraseIdx i).insertIdx (m.len - 1) m.entries[i] := by
    rw [moveIndex, dif_pos hin]
  have hlast : m.len - 1 = (m.entries.eraseIdx i).length := (List.length_eraseIdx_of_lt hlt).symm
  rw [keys_erase h, keys, hentries, hlast, List.insertIdx_length_self, List.map_append,
    ← List.eraseIdx_map, List.map_singleton, hfst]
  rfl

theorem keys_shiftRemove (m : IndexMap K V) (k : K) :
    (m.shiftRemove k).2.keys = m.keys.erase k := by
  rw [keys, keys, List.erase_eq_eraseP', List.eraseP_map]
  rfl

theorem get_shiftRemove_of_ne (m : IndexMap K V) (h : k' ≠ k) :
    (m.shiftRemove k).2.get k' = m.get k' :=
  get_congr fun v => List.mem_eraseP_of_neg (by simpa using h)

theorem get_shiftRemoveIndex_zero (h : k ∈ (m.shiftRemoveIndex 0).keys) :
    (m.shiftRemoveIndex 0).get k = m.get k := by
  obtain ⟨es, hnd⟩ := m
  refine get_congr fun v => ?_
  cases es with
  | nil => exact Iff.rfl
  | cons e es =>
    rw [List.map_cons, List.nodup_cons] at hnd
    refine ⟨List.mem_cons_of_mem e, fun hm => (List.mem_cons.mp hm).resolve_left ?_⟩
    rintro rfl
    exact hnd.1 h

end AScript.Lib.IndexMap
