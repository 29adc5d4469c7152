import Mathlib.Data.Finset.Card
import Mathlib.Logic.Function.Basic

namespace AScript.Lib

structure Stamped (K V : Type) where
  live : Finset K
  value : K → V
  lastUse : K → Nat
  now : Nat
  drops : Nat

namespace Stamped

variable {K V : Type} {keys : List K} {c : Stamped K V}

def empty (default : V) : Stamped K V := ⟨∅, fun _ => default, fun _ => 0, 0, 0⟩

def tick (c : Stamped K V) : Stamped K V := { c with now := c.now + 1 }

def clear (c : Stamped K V) : Stamped K V := { c with live := ∅ }

def dropOldest (c : Stamped K V) : Stamped K V :=
  { c with
    live := c.live.filter fun k => ∃ j ∈ c.live, c.lastUse j < c.lastUse k
    drops := c.drops + 1 }

structure Orders (keys : List K) (c : Stamped K V) : Prop where
  mem : ∀ k, k ∈ keys ↔ k ∈ c.live
  sorted : keys.Pairwise fun j k => c.lastUse j < c.lastUse k
  past : ∀ k ∈ keys, c.lastUse k < c.now

namespace Orders

theorem empty (default : V) : Orders [] (Stamped.empty (K := K) default) :=
  ⟨fun _ => by simp [Stamped.empty], .nil, nofun⟩

theorem clear : Orders [] c.clear := ⟨fun _ => by simp [Stamped.clear], .nil, nofun⟩

theorem tick (h : Orders keys c) : Orders keys c.tick :=
  ⟨h.mem, h.sorted, fun k hk => Nat.lt_succ_of_lt (h.past k hk)⟩

theorem nodup (h : Orders keys c) : keys.Nodup := h.sorted.imp fun hlt => by
  rintro rfl
  exact Nat.lt_irrefl _ hlt

theorem card (h : Orders keys c) : keys.length = c.live.card := by
  classical
  rw [← List.toFinset_card_of_nodup h.nodup]
  congr 1
  ext k
  rw [List.mem_toFinset, h.mem]

theorem dropOldest (h : Orders (k :: keys) c) : Orders keys c.dropOldest := by
  obtain ⟨hhead, htail⟩ := List.pairwise_cons.mp h.sorted
  have hmem (j : K) : j ∈ keys ↔ j ∈ c.dropOldest.live := by
    rw [Stamped.dropOldest, Finset.mem_filter, ← h.mem, List.mem_cons]
    constructor
    · intro hj
      exact ⟨.inr hj, k, (h.mem k).mp List.mem_cons_self, hhead j hj⟩
    · rintro ⟨rfl | hj, i, hi, hlt⟩
      · rcases List.mem_cons.mp ((h.mem i).mpr hi) with rfl | hi
        · exact absurd hlt (Nat.lt_irrefl _)
        · exact absurd hlt (Nat.lt_asymm (hhead i hi))
      · exact hj
  exact ⟨hmem, htail, fun j hj => h.past j (List.mem_cons_of_mem k hj)⟩

end Orders

variable [DecidableEq K]

def use (c : Stamped K V) (k : K) : Stamped K V :=
  { c with lastUse := Function.update c.lastUse k c.now }

def put (c : Stamped K V) (k : K) (v : V) : Stamped K V :=
  { c.use k with live := insert k c.live, value := Function.update c.value k v }

def remove (c : Stamped K V) (k : K) : Stamped K V := { c with live := c.live.erase k }

namespace Orders

theorem remove (h : Orders keys c) (k : K) : Orders (keys.erase k) (c.remove k) := by
  refine ⟨fun j => ?_, h.sorted.sublist List.erase_sublist, fun j hj => ?_⟩
  · rw [h.nodup.mem_erase_iff, Stamped.remove, Finset.mem_erase, h.mem]
  · exact h.past j (List.mem_of_mem_erase hj)

theorem last {live : Finset K} {value : K → V} (h : Orders keys c) (k : K)
    (hmem : ∀ j, j ∈ keys.erase k ∨ j = k ↔ j ∈ live) :
    Orders (keys.erase k ++ [k]) { (c.use k).tick with live := live, value := value } := by
  have hne {j} (hj : j ∈ keys.erase k) : (c.use k).lastUse j = c.lastUse j :=
    Function.update_of_ne (h.nodup.mem_erase_iff.mp hj).1 _ _
  have hself : (c.use k).lastUse k = c.now := Function.update_self ..
  have hpast {j} (hj : j ∈ keys.erase k) : c.lastUse j < c.now :=
    h.past j (List.mem_of_mem_erase hj)
  refine ⟨fun j => by rw [← hmem, List.mem_append, List.mem_singleton], ?_, fun j hj => ?_⟩
  · refine List.pairwise_append.mpr ⟨?_, List.pairwise_singleton _ _, fun j hj i hi => ?_⟩
    · refine (h.sorted.sublist List.erase_sublist).imp_of_mem fun hi hj hlt => ?_
      change (c.use k).lastUse _ < (c.use k).lastUse _
      rwa [hne hi, hne hj]
    · rw [List.mem_singleton.mp hi]
      change (c.use k).lastUse _ < (c.use k).lastUse _
      rw [hne hj, hself]
      exact hpast hj
  · change (c.use k).lastUse j < c.now + 1
    rcases List.mem_append.mp hj with hj | hj
    · rw [hne hj]
      exact Nat.lt_succ_of_lt (hpast hj)
    · rw [List.mem_singleton.mp hj, hself]
      exact Nat.lt_succ_self _

theorem use (h : Orders keys c) (hk : k ∈ keys) :
    Orders (keys.erase k ++ [k]) (c.use k).tick := by
  refine h.last k fun j => ?_
  rw [h.nodup.mem_erase_iff]
  constructor
  · rintro (⟨-, hj⟩ | rfl)
    · exact (h.mem j).mp hj
    · exact (h.mem j).mp hk
  · intro hj
    by_cases he : j = k
    · exact .inr he
    · exact .inl ⟨he, (h.mem j).mpr hj⟩

theorem put (h : Orders keys c) (k : K) (v : V) :
    Orders (keys.erase k ++ [k]) (c.put k v).tick := by
  refine h.last k fun j => ?_
  change _ ↔ j ∈ insert k c.live
  rw [h.nodup.mem_erase_iff, Finset.mem_insert, h.mem]
  by_cases he : j = k
  · simp [he]
  · simp [he]

end Orders

end Stamped

end AScript.Lib
