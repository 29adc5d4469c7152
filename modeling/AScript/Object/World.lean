import AScript.Lib.Machine
import AScript.Object.Refinement

universe u v

namespace AScript.Object

open AScript.Lib

variable {K : Type u} {V : Type v} [DecidableEq K]

structure World (K : Type u) (V : Type v) [DecidableEq K] where
  reg : ShapeRegistry K
  cells : List (ObjectCell K V)

def World.init : World K V := ⟨.new, []⟩

/-- Operations on objects, named by their allocation order. `shapeFor` is any other
code that lays out keys in the same registry. -/
inductive Op (K : Type u) (V : Type v)
  | newObject : IndexMap K V → Op K V
  | newLiteral : List (K × V) → Op K V
  | shapeFor : List K → Op K V
  | insert : Nat → K → V → Op K V
  | vmInsert : Nat → K → V → Op K V
  | setValueAt : Nat → Nat → V → Op K V
  | shiftRemove : Nat → K → Op K V
  | demoteToDict : Nat → Op K V
  | freeze : Nat → Op K V
  | get : Nat → K → Op K V
  | getIndexOf : Nat → K → Op K V
  | getIndex : Nat → Nat → Op K V
  | valueAt : Nat → Nat → Op K V
  | containsKey : Nat → K → Op K V
  | len : Nat → Op K V
  | keys : Nat → Op K V
  | entries : Nat → Op K V
  | contentEq : Nat → Nat → Op K V

inductive Obs (K : Type u) (V : Type v)
  | done
  | flag : Bool → Obs K V
  | value : Option V → Obs K V
  | index : Option Nat → Obs K V
  | entry : Option (K × V) → Obs K V
  | count : Nat → Obs K V
  | keys : List K → Obs K V
  | entries : List (K × V) → Obs K V

def World.alloc (w : World K V) (r : Option (ShapeRegistry K × ObjectCell K V)) :
    Option (Obs K V × World K V) :=
  r.map fun (reg, c) => (.done, ⟨reg, w.cells ++ [c]⟩)

def World.read (w : World K V) (i : Nat) (f : ObjectCell K V → Obs K V) :
    Option (Obs K V × World K V) :=
  (w.cells[i]?).map fun c => (f c, w)

def World.write (w : World K V) (i : Nat)
    (f : ObjectCell K V → Option (Obs K V × ShapeRegistry K × ObjectCell K V)) :
    Option (Obs K V × World K V) :=
  (w.cells[i]?).bind fun c => (f c).map fun (o, reg, c') => (o, ⟨reg, w.cells.set i c'⟩)

def World.step [BEq V] (w : World K V) : Op K V → Option (Obs K V × World K V)
  | .newObject m => w.alloc (some (w.reg, .new m))
  | .newLiteral ps => w.alloc (newObjectGeneric w.reg ps)
  | .shapeFor ks => (w.reg.shapeFor ks).map fun (_, reg) => (.done, { w with reg := reg })
  | .insert i k v => w.write i fun c => some (.done, w.reg, c.insert k v)
  | .vmInsert i k v => w.write i fun c =>
      (vmObjectInsert w.reg c k v).map fun (reg, c') => (.done, reg, c')
  | .setValueAt i j v => w.write i fun c =>
      some (.flag (c.setValueAt j v).1, w.reg, (c.setValueAt j v).2)
  | .shiftRemove i k => w.write i fun c =>
      some (.value (c.shiftRemove k).1, w.reg, (c.shiftRemove k).2)
  | .demoteToDict i => w.write i fun c => some (.done, w.reg, c.demoteToDict)
  | .freeze i => w.write i fun c => some (.done, w.reg, c.freeze)
  | .get i k => w.read i fun c => .value (c.storage.get k)
  | .getIndexOf i k => w.read i fun c => .index (c.storage.getIndexOf k)
  | .getIndex i j => w.read i fun c => .entry (c.storage.getIndex j)
  | .valueAt i j => w.read i fun c => .value (c.storage.valueAt j)
  | .containsKey i k => w.read i fun c => .flag (c.storage.containsKey k)
  | .len i => w.read i fun c => .count c.storage.len
  | .keys i => w.read i fun c => .keys c.storage.keysSnapshot
  | .entries i => w.read i fun c => .entries c.storage.entries
  | .contentEq i j => (w.cells[j]?).bind fun d => w.read i fun c => .flag (c.contentEq d)

def machine [BEq V] : Machine (World K V) (Op K V) (Obs K V) := ⟨World.step⟩

namespace Dict

abbrev State (K : Type u) (V : Type v) := List (IndexMap K V)

def read (s : State K V) (i : Nat) (f : IndexMap K V → Obs K V) : Option (Obs K V × State K V) :=
  (s[i]?).map fun m => (f m, s)

def write (s : State K V) (i : Nat) (f : IndexMap K V → Obs K V × IndexMap K V) :
    Option (Obs K V × State K V) :=
  (s[i]?).map fun m => ((f m).1, s.set i (f m).2)

def contentEq [BEq V] (m n : IndexMap K V) : Bool :=
  m.len == n.len && m.entries.all fun e => (n.get e.1).any (· == e.2)

def step [BEq V] (s : State K V) : Op K V → Option (Obs K V × State K V)
  | .newObject m => some (.done, s ++ [m])
  | .newLiteral ps => some (.done, s ++ [.ofPairs ps])
  | .shapeFor _ => some (.done, s)
  | .insert i k v => write s i fun m => (.done, m.insert k v)
  | .vmInsert i k v => write s i fun m => (.done, m.insert k v)
  | .setValueAt i j v => write s i fun m => (.flag (decide (j < m.len)), m.setAt j v)
  | .shiftRemove i k => write s i fun m => (.value (m.shiftRemove k).1, (m.shiftRemove k).2)
  | .demoteToDict i => write s i fun m => (.done, m)
  | .freeze i => write s i fun m => (.done, m)
  | .get i k => read s i fun m => .value (m.get k)
  | .getIndexOf i k => read s i fun m => .index (m.getIndexOf k)
  | .getIndex i j => read s i fun m => .entry (m.getIndex j)
  | .valueAt i j => read s i fun m => .value ((m.getIndex j).map Prod.snd)
  | .containsKey i k => read s i fun m => .flag (m.containsKey k)
  | .len i => read s i fun m => .count m.len
  | .keys i => read s i fun m => .keys m.keys
  | .entries i => read s i fun m => .entries m.entries
  | .contentEq i j => (s[j]?).bind fun n => read s i fun m => .flag (contentEq m n)

def machine [BEq V] : Machine (State K V) (Op K V) (Obs K V) := ⟨step⟩

end Dict

/-- Cell by cell, the world stands for the dictionaries, under a registry that has grown
from `r`. -/
structure Abstracts (r : ShapeRegistry K) (w : World K V) (s : Dict.State K V) : Prop where
  cells : List.Forall₂ (Represents w.reg) w.cells s
  grown : r.Extends w.reg

namespace Abstracts

variable {r : ShapeRegistry K} {w : World K V} {s : Dict.State K V}

theorem init : Abstracts .new (World.init : World K V) [] := ⟨.nil, .refl _⟩

theorem rebase (h : Abstracts r w s) : Abstracts w.reg w s := ⟨h.cells, .refl _⟩

theorem grow (h : Abstracts r w s) (hx : w.reg.Extends reg) : Abstracts r ⟨reg, w.cells⟩ s :=
  ⟨h.cells.imp fun _ _ hr => hr.mono hx, h.grown.trans hx⟩

theorem set (h : Abstracts r w s) (hx : w.reg.Extends reg) (hc : Represents reg c m) (i : Nat) :
    Abstracts r ⟨reg, w.cells.set i c⟩ (s.set i m) :=
  ⟨forall₂_set (h.grow hx).cells hc i, h.grown.trans hx⟩

theorem alloc (h : Abstracts r w s)
    (hr : ∃ reg c, p = some (reg, c) ∧ w.reg.Extends reg ∧ Represents reg c m) :
    Matches (Abstracts r) (w.alloc p) (some (.done, s ++ [m])) := by
  obtain ⟨reg, c, rfl, hx, hc⟩ := hr
  exact ⟨rfl, forall₂_append_one (h.grow hx).cells hc, h.grown.trans hx⟩

theorem read (h : Abstracts r w s) (i : Nat)
    {f : ObjectCell K V → Obs K V} {g : IndexMap K V → Obs K V}
    (hfg : ∀ c m, Represents w.reg c m → f c = g m) :
    Matches (Abstracts r) (w.read i f) (Dict.read s i g) := by
  unfold World.read Dict.read
  obtain ⟨hc, hm⟩ | ⟨c, m, hc, hm, hr⟩ := forall₂_getElem? h.cells i
  · rw [hc, hm]
    trivial
  · rw [hc, hm]
    exact ⟨hfg c m hr, h⟩

theorem write (h : Abstracts r w s) (i : Nat)
    {f : ObjectCell K V → Option (Obs K V × ShapeRegistry K × ObjectCell K V)}
    {g : IndexMap K V → Obs K V × IndexMap K V}
    (hfg : ∀ c m, Represents w.reg c m → ∃ reg c', f c = some ((g m).1, reg, c') ∧
      w.reg.Extends reg ∧ Represents reg c' (g m).2) :
    Matches (Abstracts r) (w.write i f) (Dict.write s i g) := by
  unfold World.write Dict.write
  obtain ⟨hc, hm⟩ | ⟨c, m, hc, hm, hr⟩ := forall₂_getElem? h.cells i
  · rw [hc, hm]
    trivial
  · obtain ⟨reg, c', hf, hx, hr'⟩ := hfg c m hr
    rw [hc, hm]
    simp only [Option.bind_some, hf, Option.map_some]
    exact ⟨rfl, h.set hx hr' i⟩

end Abstracts

theorem machine_simulates [BEq V] (r : ShapeRegistry K) :
    (machine : Machine (World K V) (Op K V) (Obs K V)).Simulates Dict.machine (Abstracts r) := by
  intro w s op h
  change Matches (Abstracts r) (w.step op) (Dict.step s op)
  cases op with
  | newObject m => exact h.alloc ⟨_, _, rfl, .refl _, .dict⟩
  | newLiteral ps => exact h.alloc (newObjectGeneric_spec w.reg ps)
  | shapeFor ks =>
    obtain ⟨r, reg, hs, hx, -⟩ := w.reg.shapeFor_spec ks
    simp only [World.step, hs]
    exact ⟨rfl, h.grow hx⟩
  | insert i k v => exact h.write i fun c m hr => ⟨_, _, rfl, .refl _, hr.insert k v⟩
  | vmInsert i k v =>
    refine h.write i fun c m hr => ?_
    obtain ⟨reg, c', hv, hx, hr'⟩ := hr.vmObjectInsert k v
    exact ⟨reg, c', by rw [hv]; rfl, hx, hr'⟩
  | setValueAt i j v =>
    refine h.write i fun c m hr => ⟨_, _, ?_, .refl _, hr.setValueAt_snd j v⟩
    rw [hr.setValueAt_fst]
  | shiftRemove i k =>
    refine h.write i fun c m hr => ⟨_, _, ?_, .refl _, hr.shiftRemove_snd k⟩
    rw [hr.shiftRemove_fst]
    rfl
  | demoteToDict i => exact h.write i fun c m hr => ⟨_, _, rfl, .refl _, hr.demoteToDict⟩
  | freeze i => exact h.write i fun c m hr => ⟨_, _, rfl, .refl _, hr.freeze⟩
  | get i k => exact h.read i fun c m hr => by rw [hr.get_eq]
  | getIndexOf i k => exact h.read i fun c m hr => by rw [hr.getIndexOf_eq]
  | getIndex i j => exact h.read i fun c m hr => by rw [hr.getIndex_eq]
  | valueAt i j => exact h.read i fun c m hr => by rw [hr.valueAt_eq]
  | containsKey i k => exact h.read i fun c m hr => by rw [hr.containsKey_eq]
  | len i => exact h.read i fun c m hr => by rw [hr.len_eq]
  | keys i => exact h.read i fun c m hr => by rw [hr.keysSnapshot_eq]
  | entries i => exact h.read i fun c m hr => by rw [hr.entries_eq]
  | contentEq i j =>
    simp only [World.step, Dict.step]
    obtain ⟨hd, hn⟩ | ⟨d, n, hd, hn, hr'⟩ := forall₂_getElem? h.cells j
    · rw [hd, hn]
      trivial
    · rw [hd, hn]
      exact h.read i fun c m hr => congrArg Obs.flag (hr.contentEq_eq hr')

/-- Every run of object operations answers as the ordered dictionaries do, and a slab it
leaves behind has the keys of its registered layout, in insertion order. -/
theorem slab_refines_dictionary [BEq V] (ops : List (Op K V)) :
    ((machine.run World.init ops).map Prod.fst =
      ((Dict.machine : Machine (Dict.State K V) _ _).run [] ops).map Prod.fst) ∧
    ∀ os (w : World K V), machine.run World.init ops = some (os, w) →
      ∃ s : Dict.State K V, Dict.machine.run [] ops = some (os, s) ∧
        s.length = w.cells.length ∧
        ∀ (i : Nat) ks vs shape frozen, w.cells[i]? = some ⟨.slab ks vs, shape, frozen⟩ →
          w.reg.keysOf shape = some ks ∧ ks.length = vs.length ∧
            ∃ m, s[i]? = some m ∧ m.keys = ks := by
  have hrun := (machine_simulates .new).run (Abstracts.init (V := V)) ops
  refine ⟨hrun.map_fst, fun os w hw => ?_⟩
  obtain ⟨s, hs, hr⟩ := hrun.related hw
  refine ⟨s, hs, hr.cells.length_eq.symm, fun i ks vs shape frozen hc => ?_⟩
  obtain ⟨hn, -⟩ | ⟨c, m, hc', hm, hrep⟩ := forall₂_getElem? hr.cells i
  · rw [hc] at hn
    cases hn
  · rw [hc] at hc'
    cases hc'
    cases hrep with
    | slab hl => exact ⟨hl, by simp, m, hm, rfl⟩

end AScript.Object
