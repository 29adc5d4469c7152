import AScript.Object.World

universe u v

namespace AScript.Object

open AScript.Lib

def polyMax : Nat := 4

/-- `vm/ic.rs` `InlineCache`, a polymorphic site holding its live entries only. Slots are
`(shape, index)`. -/
inductive InlineCache
  | cold
  | mono : Nat → Nat → InlineCache
  | poly : List (Nat × Nat) → InlineCache
  | mega
  deriving DecidableEq

namespace InlineCache

def lookup : InlineCache → Nat → Option Nat
  | .cold, _ | .mega, _ => none
  | .mono s i, shape => if s == shape then some i else none
  | .poly es, shape => (es.find? (·.1 == shape)).map Prod.snd

def refresh (shape index : Nat) : List (Nat × Nat) → List (Nat × Nat)
  | [] => []
  | e :: es => if e.1 == shape then (e.1, index) :: es else e :: refresh shape index es

def record : InlineCache → Nat → Nat → InlineCache
  | .cold, shape, index => .mono shape index
  | .mono s i, shape, index =>
    if s == shape then .mono s index else .poly [(s, i), (shape, index)]
  | .poly es, shape, index =>
    if es.any (·.1 == shape) then .poly (refresh shape index es)
    else if es.length < polyMax then .poly (es ++ [(shape, index)])
    else .mega
  | .mega, _, _ => .mega

def slots : InlineCache → List (Nat × Nat)
  | .cold | .mega => []
  | .mono s i => [(s, i)]
  | .poly es => es

theorem mem_slots_of_lookup {ic : InlineCache} (h : ic.lookup s = some i) : (s, i) ∈ ic.slots := by
  cases ic with
  | cold => cases h
  | mega => cases h
  | mono s' i' =>
    rw [lookup] at h
    split at h
    · rename_i hs
      cases h
      rw [beq_iff_eq.mp hs]
      exact .head _
    · cases h
  | poly es =>
    obtain ⟨e, he, rfl⟩ := Option.map_eq_some_iff.mp h
    have hs : e.1 = s := by simpa using List.find?_some he
    subst hs
    exact List.mem_of_find?_eq_some he

theorem mem_refresh (h : e ∈ refresh s i es) : e ∈ es ∨ e = (s, i) := by
  induction es with
  | nil => cases h
  | cons a es ih =>
    rw [refresh] at h
    split at h
    · rename_i ha
      rcases List.mem_cons.mp h with rfl | h
      · exact .inr (by rw [beq_iff_eq.mp ha])
      · exact .inl (.tail _ h)
    · rcases List.mem_cons.mp h with rfl | h
      · exact .inl (.head _)
      · exact (ih h).imp (.tail _) id

theorem mem_slots_record {ic : InlineCache} (h : e ∈ (ic.record s i).slots) :
    e ∈ ic.slots ∨ e = (s, i) := by
  cases ic with
  | cold => exact .inr (List.mem_singleton.mp h)
  | mega => cases h
  | mono s' i' =>
    rw [record] at h
    split at h
    · rename_i hs
      exact .inr ((List.mem_singleton.mp h).trans (by rw [beq_iff_eq.mp hs]))
    · rcases List.mem_cons.mp h with rfl | h
      · exact .inl (.head _)
      · exact .inr (List.mem_singleton.mp h)
  | poly es =>
    rw [record] at h
    split at h
    · exact mem_refresh h
    · split at h
      · rcases List.mem_append.mp h with h | h
        · exact .inl h
        · exact .inr (List.mem_singleton.mp h)
      · cases h

end InlineCache

variable {K : Type u} {V : Type v} [DecidableEq K]

/-- What property access reads besides the cell: the receiver's kind, the schema test, the
field contract and the methods of its class, and each site's property name. -/
structure Context (K : Type u) (V : Type v) [DecidableEq K] where
  name : Nat → K
  isInstance : Nat → Bool
  isSchemaValue : ObjectCell K V → Bool
  fieldContract : World K V → Nat → K → V → Bool
  findMethod : World K V → Nat → K → Option V
  nil : V

structure IcWorld (K : Type u) (V : Type v) [DecidableEq K] where
  base : World K V
  fieldIc : Nat → InlineCache

def IcWorld.init : IcWorld K V := ⟨.init, fun _ => .cold⟩

def IcWorld.recordAt (w : IcWorld K V) (site shape index : Nat) : IcWorld K V :=
  { w with fieldIc := Function.update w.fieldIc site ((w.fieldIc site).record shape index) }

inductive IcOp (K : Type u) (V : Type v)
  | object : Op K V → IcOp K V
  | getProp : Nat → Nat → IcOp K V
  | setProp : Nat → Nat → V → IcOp K V
  | seed : Nat → List (List K) → IcOp K V

inductive IcObs (K : Type u) (V : Type v)
  | object : Obs K V → IcObs K V
  | value : V → IcObs K V
  | frozen
  | contract
  | seeded

namespace IcWorld

variable (X : Context K V)

/-- `Vm::vm_read_member` on an object or instance. -/
def vmReadMember (w : World K V) (i : Nat) (c : ObjectCell K V) (name : K) : V :=
  match c.storage.get name with
  | some v => v
  | none => if X.isInstance i then (X.findMethod w i name).getD X.nil else X.nil

/-- The resolution of `Vm::ic_get_field` after a miss. -/
def resolveField (w : IcWorld K V) (site : Nat) (c : ObjectCell K V) : Option V × IcWorld K V :=
  match c.storage.getIndexOf (X.name site) with
  | some idx => (c.storage.valueAt idx, w.recordAt site c.shape idx)
  | none => (none, w)

def icGetField (w : IcWorld K V) (site i : Nat) (c : ObjectCell K V) : Option V × IcWorld K V :=
  if c.shape == 0 || (!X.isInstance i && X.isSchemaValue c) then (none, w)
  else
    match (w.fieldIc site).lookup c.shape with
    | some idx =>
      match c.storage.valueAt idx with
      | some v => (some v, w)
      | none => w.resolveField X site c
    | none => w.resolveField X site c

def getProp (specialize : Bool) (w : IcWorld K V) (site i : Nat) (c : ObjectCell K V) :
    V × IcWorld K V :=
  let r := if specialize then w.icGetField X site i c else (none, w)
  match r.1 with
  | some v => (v, r.2)
  | none => (vmReadMember X r.2.base i c (X.name site), r.2)

def setCell (w : IcWorld K V) (i : Nat) (reg : ShapeRegistry K) (c : ObjectCell K V) :
    IcWorld K V :=
  { w with base := ⟨reg, w.base.cells.set i c⟩ }

/-- The tail of `Vm::vm_set_prop`: the generic store, then the cache record. -/
def storeAndRecord (specialize : Bool) (w : IcWorld K V) (site i : Nat) (c : ObjectCell K V)
    (value : V) : Option (IcObs K V × IcWorld K V) :=
  (vmObjectInsert w.base.reg c (X.name site) value).map fun (reg, c') =>
    let w' := w.setCell i reg c'
    (.value value,
      if specialize && c'.shape != 0 && (X.isInstance i || !X.isSchemaValue c') then
        match c'.storage.getIndexOf (X.name site) with
        | some idx => w'.recordAt site c'.shape idx
        | none => w'
      else w')

def setProp (specialize : Bool) (w : IcWorld K V) (site i : Nat) (c : ObjectCell K V) (value : V) :
    Option (IcObs K V × IcWorld K V) :=
  if c.frozen then some (.frozen, w)
  else if X.isInstance i then
    if X.fieldContract w.base i (X.name site) value then
      w.storeAndRecord X specialize site i c value
    else some (.contract, w)
  else if specialize && c.shape != 0 && !X.isSchemaValue c then
    match (w.fieldIc site).lookup c.shape with
    | some idx =>
      match c.setValueAt idx value with
      | (true, c') => some (.value value, w.setCell i w.base.reg c')
      | (false, _) => w.storeAndRecord X specialize site i c value
    | none => w.storeAndRecord X specialize site i c value
  else w.storeAndRecord X specialize site i c value

def internLists (reg : ShapeRegistry K) : List (List K) →
    Option (List (Option Nat) × ShapeRegistry K)
  | [] => some ([], reg)
  | ks :: rest =>
    match reg.shapeFor ks with
    | none => none
    | some (r, reg') => (internLists reg' rest).map fun (rs, reg'') => (r :: rs, reg'')

def seedIc (name : K) : List (List K) → List (Option Nat) → InlineCache → InlineCache
  | ks :: lists, some shape :: rs, ic =>
    match ks.findIdx? (· == name) with
    | some pos => seedIc name lists rs (ic.record shape pos)
    | none => seedIc name lists rs ic
  | _ :: lists, none :: rs, ic => seedIc name lists rs ic
  | _, _, ic => ic

/-- `Vm::seed_chunk` for one field site. -/
def seed (w : IcWorld K V) (site : Nat) (lists : List (List K)) :
    Option (IcObs K V × IcWorld K V) :=
  (internLists w.base.reg lists).map fun (rs, reg) =>
    let ic := seedIc (X.name site) lists rs .cold
    (.seeded, ⟨{ w.base with reg := reg },
      if ic = .cold then w.fieldIc else Function.update w.fieldIc site ic⟩)

def step [BEq V] (specialize : Bool) (w : IcWorld K V) : IcOp K V → Option (IcObs K V × IcWorld K V)
  | .object op => (w.base.step op).map fun (o, base) => (.object o, { w with base := base })
  | .getProp site i => (w.base.cells[i]?).map fun c =>
      (.value (w.getProp X specialize site i c).1, (w.getProp X specialize site i c).2)
  | .setProp site i v => (w.base.cells[i]?).bind fun c => w.setProp X specialize site i c v
  | .seed site lists => w.seed X site lists

def machine [BEq V] (specialize : Bool) : Machine (IcWorld K V) (IcOp K V) (IcObs K V) :=
  ⟨step X specialize⟩

def CacheSound (w : IcWorld K V) : Prop :=
  ∀ site shape idx, (shape, idx) ∈ (w.fieldIc site).slots →
    ∃ ks, w.base.reg.keysOf shape = some ks ∧ ks.findIdx? (· == X.name site) = some idx

structure Inv (w : IcWorld K V) : Prop where
  represented : ∃ s, Abstracts w.base.reg w.base s
  sound : CacheSound X w

variable {X} {w : IcWorld K V} {c : ObjectCell K V} {m : IndexMap K V}

theorem Inv.cell (h : Inv X w) {i : Nat} (hc : w.base.cells[i]? = some c) :
    ∃ m, Represents w.base.reg c m := by
  obtain ⟨s, hs⟩ := h.represented
  obtain ⟨hn, -⟩ | ⟨d, m, hd, -, hr⟩ := forall₂_getElem? hs.cells i
  · rw [hc] at hn
    cases hn
  · rw [hc] at hd
    cases hd
    exact ⟨m, hr⟩

theorem CacheSound.grow (h : CacheSound X w) (hx : w.base.reg.Extends reg) (cells) :
    CacheSound X { w with base := ⟨reg, cells⟩ } := by
  intro site shape idx hm
  obtain ⟨ks, hk, hi⟩ := h site shape idx hm
  exact ⟨ks, hx _ _ hk, hi⟩

theorem CacheSound.recordAt (h : CacheSound X w) (hk : w.base.reg.keysOf shape = some ks)
    (hi : ks.findIdx? (· == X.name site) = some idx) :
      CacheSound X (w.recordAt site shape idx) := by
  intro site' shape' idx' hm
  by_cases hs : site' = site
  · subst hs
    simp only [IcWorld.recordAt, Function.update_self] at hm
    rcases InlineCache.mem_slots_record hm with hm | he
    · exact h _ _ _ hm
    · cases he
      exact ⟨ks, hk, hi⟩
  · simp only [IcWorld.recordAt, Function.update_of_ne hs] at hm
    exact h _ _ _ hm

theorem CacheSound.hit (h : CacheSound X w) (hr : Represents w.base.reg c m)
    (hl : (w.fieldIc site).lookup c.shape = some idx) :
    c.storage.getIndexOf (X.name site) = some idx := by
  obtain ⟨ks, hk, hi⟩ := h _ _ _ (InlineCache.mem_slots_of_lookup hl)
  rw [hr.getIndexOf_eq]
  cases hr with
  | slab hs =>
    cases hs.symm.trans hk
    exact hi
  | dict =>
    cases w.base.reg.root.symm.trans hk
    cases hi

end IcWorld

namespace Represents

variable {reg : ShapeRegistry K} {c : ObjectCell K V} {m : IndexMap K V}

theorem layout_of_ne_zero (h : Represents reg c m) (hc : c.shape ≠ 0) :
    reg.keysOf c.shape = some m.keys := by
  cases h with
  | slab hs => exact hs
  | dict => exact absurd rfl hc

theorem index_lt_len (h : Represents reg c m) (hi : c.storage.getIndexOf k = some idx) :
    idx < m.len := by
  rw [h.getIndexOf_eq] at hi
  have hlt := (List.findIdx?_eq_some_iff_getElem.mp hi).1
  rwa [m.length_keys] at hlt

theorem valueAt_of_index (h : Represents reg c m) (hi : c.storage.getIndexOf k = some idx) :
    ∃ v, c.storage.valueAt idx = some v ∧ c.storage.get k = some v := by
  have hlt := h.index_lt_len hi
  have he : m.getIndex idx = some m.entries[idx] := List.getElem?_eq_getElem hlt
  rw [h.getIndexOf_eq] at hi
  refine ⟨m.entries[idx].2, ?_, ?_⟩
  · rw [h.valueAt_eq, he]
    rfl
  · rw [h.get_eq, m.get_eq_getIndex, hi, Option.bind_some, he]
    rfl

theorem vmObjectInsert_of_index (h : Represents reg c m) (hi : c.storage.getIndexOf k = some idx)
    (v : V) : (c.setValueAt idx v).1 = true ∧
      Object.vmObjectInsert reg c k v = some (reg, (c.setValueAt idx v).2) := by
  constructor
  · rw [h.setValueAt_fst]
    exact decide_eq_true (h.index_lt_len hi)
  · rw [Object.vmObjectInsert, hi]

end Represents

namespace IcWorld

variable {X : Context K V} {w g : IcWorld K V} {c : ObjectCell K V} {m : IndexMap K V}

theorem vmReadMember_of_get (h : c.storage.get name = some v) :
    vmReadMember X b i c name = v := by
  rw [vmReadMember, h]

theorem resolveField_spec (h : CacheSound X w) (hr : Represents w.base.reg c m)
    (hc : c.shape ≠ 0) (site : Nat) :
    CacheSound X (w.resolveField X site c).2 ∧ (w.resolveField X site c).2.base = w.base ∧
      ∀ v, (w.resolveField X site c).1 = some v → c.storage.get (X.name site) = some v := by
  unfold resolveField
  cases hi : c.storage.getIndexOf (X.name site) with
  | none => exact ⟨h, rfl, fun v hv => by cases hv⟩
  | some idx =>
    obtain ⟨v, hv, hg⟩ := hr.valueAt_of_index hi
    refine ⟨h.recordAt (hr.layout_of_ne_zero hc) ?_, rfl, fun v' hv' => ?_⟩
    · rw [hr.getIndexOf_eq] at hi
      exact hi
    · exact hg.trans (hv.symm.trans hv')

theorem icGetField_spec (h : CacheSound X w) (hr : Represents w.base.reg c m) (site i : Nat) :
    CacheSound X (w.icGetField X site i c).2 ∧ (w.icGetField X site i c).2.base = w.base ∧
      ∀ v, (w.icGetField X site i c).1 = some v → c.storage.get (X.name site) = some v := by
  unfold icGetField
  split
  · exact ⟨h, rfl, fun v hv => by cases hv⟩
  · rename_i hg
    have hc : c.shape ≠ 0 := by
      intro h0
      simp [h0] at hg
    split
    · rename_i idx hl
      obtain ⟨v, hv, hget⟩ := hr.valueAt_of_index (h.hit hr hl)
      rw [hv]
      exact ⟨h, rfl, fun v' hv' => by cases hv'; exact hget⟩
    · exact resolveField_spec h hr hc site

theorem getProp_spec (h : CacheSound X w) (hr : Represents w.base.reg c m) (site i : Nat) :
    (w.getProp X true site i c).1 = vmReadMember X w.base i c (X.name site) ∧
      CacheSound X (w.getProp X true site i c).2 ∧ (w.getProp X true site i c).2.base = w.base := by
  obtain ⟨hs, hb, hv⟩ := icGetField_spec h hr site i
  simp only [getProp, if_true]
  cases hf : (w.icGetField X site i c).1 with
  | some v => exact ⟨(vmReadMember_of_get (hv v hf)).symm, hs, hb⟩
  | none => exact ⟨by rw [hb], hs, hb⟩

theorem storeAndRecord_spec (h : CacheSound X w) (hr : Represents w.base.reg c m)
    (site i : Nat) (v : V) (spec : Bool) :
    ∃ reg c' ic, vmObjectInsert w.base.reg c (X.name site) v = some (reg, c') ∧
      w.storeAndRecord X spec site i c v = some (.value v, ⟨⟨reg, w.base.cells.set i c'⟩, ic⟩) ∧
      CacheSound X ⟨⟨reg, w.base.cells.set i c'⟩, ic⟩ := by
  obtain ⟨reg, c', hv, hx, hr'⟩ := hr.vmObjectInsert (X.name site) v
  have hg := h.grow hx (w.base.cells.set i c')
  simp only [storeAndRecord, hv, Option.map_some]
  split
  · rename_i hspec
    have hc : c'.shape ≠ 0 := by
      intro h0
      simp [h0] at hspec
    split
    · rename_i idx hi
      refine ⟨reg, c', _, rfl, rfl, hg.recordAt (hr'.layout_of_ne_zero hc) ?_⟩
      rw [hr'.getIndexOf_eq] at hi
      exact hi
    · exact ⟨reg, c', _, rfl, rfl, hg⟩
  · exact ⟨reg, c', _, rfl, rfl, hg⟩

def Agrees (X : Context K V) (w g : IcWorld K V) : Prop := w.base = g.base ∧ Inv X w

theorem storeAndRecord_agrees (h : Inv X w) (hb : w.base = g.base)
    (hr : Represents w.base.reg c m) (site i : Nat) (v : V) :
    Matches (Agrees X) (w.storeAndRecord X true site i c v)
      (g.storeAndRecord X false site i c v) := by
  obtain ⟨reg, c', ic, hv, hw, hs⟩ := storeAndRecord_spec h.sound hr site i v true
  obtain ⟨reg₁, c₁, hv₁, hx, hr'⟩ := hr.vmObjectInsert (X.name site) v
  rw [hv] at hv₁
  cases hv₁
  obtain ⟨s, hs'⟩ := h.represented
  rw [hw, storeAndRecord, ← hb, hv]
  exact ⟨rfl, by rw [setCell, ← hb]; rfl, ⟨_, (hs'.set hx hr' i).rebase⟩, hs⟩

theorem setProp_agrees (h : Inv X w) (hb : w.base = g.base) (hr : Represents w.base.reg c m)
    (site i : Nat) (v : V) :
    Matches (Agrees X) (w.setProp X true site i c v) (g.setProp X false site i c v) := by
  have hstore := storeAndRecord_agrees h hb hr site i v
  unfold setProp
  split
  · exact ⟨rfl, hb, h⟩
  · split
    · rw [← hb]
      split
      · exact hstore
      · exact ⟨rfl, hb, h⟩
    · simp only [Bool.false_and, Bool.false_eq_true, if_false]
      split
      · split
        · rename_i idx hl
          obtain ⟨ht, hv⟩ := hr.vmObjectInsert_of_index (h.sound.hit hr hl) v
          have hset : c.setValueAt idx v = (true, (c.setValueAt idx v).2) := by rw [← ht]
          obtain ⟨s, hs⟩ := h.represented
          rw [hset]
          simp only [storeAndRecord, ← hb, hv, Option.map_some]
          refine ⟨rfl, by simp [setCell, hb],
            ⟨_, (hs.set (.refl _) (hr.setValueAt_snd idx v) i).rebase⟩, ?_⟩
          exact h.sound.grow (.refl _) _
        · exact hstore
      · exact hstore

theorem internLists_spec (reg : ShapeRegistry K) (lists : List (List K)) :
    ∃ rs reg', internLists reg lists = some (rs, reg') ∧ reg.Extends reg' ∧
      List.Forall₂ (fun ks r => ∀ shape, r = some shape →
        reg'.keysOf shape = some ks) lists rs := by
  induction lists generalizing reg with
  | nil => exact ⟨[], reg, rfl, .refl _, .nil⟩
  | cons ks lists ih =>
    obtain ⟨r, reg₁, h₁, hx₁, hr⟩ := reg.shapeFor_spec ks
    obtain ⟨rs, reg₂, h₂, hx₂, hrs⟩ := ih reg₁
    refine ⟨r :: rs, reg₂, by simp [internLists, h₁, h₂], hx₁.trans hx₂, .cons ?_ hrs⟩
    intro shape hs
    exact hx₂ _ _ (hr shape hs)

theorem seedIc_slots (reg : ShapeRegistry K) (name : K) (ic : InlineCache)
    {lists : List (List K)} {rs : List (Option Nat)}
    (h : List.Forall₂ (fun ks r => ∀ shape, r = some shape → reg.keysOf shape = some ks) lists rs)
    (hic : ∀ e ∈ ic.slots, ∃ ks, reg.keysOf e.1 = some ks ∧ ks.findIdx? (· == name) = some e.2) :
    ∀ e ∈ (seedIc name lists rs ic).slots,
      ∃ ks, reg.keysOf e.1 = some ks ∧ ks.findIdx? (· == name) = some e.2 := by
  induction h generalizing ic with
  | nil => simpa [seedIc] using hic
  | @cons ks r lists rs hr _ ih =>
    cases r with
    | none => exact ih ic hic
    | some shape =>
      rw [seedIc]
      split
      · rename_i pos hp
        refine ih _ fun e he => ?_
        rcases InlineCache.mem_slots_record he with he | rfl
        · exact hic e he
        · exact ⟨ks, hr shape rfl, hp⟩
      · exact ih ic hic

theorem seed_agrees (h : Inv X w) (hb : w.base = g.base) (site : Nat) (lists : List (List K)) :
    Matches (Agrees X) (w.seed X site lists) (g.seed X site lists) := by
  obtain ⟨rs, reg, hi, hx, hrs⟩ := internLists_spec w.base.reg lists
  obtain ⟨s, hs⟩ := h.represented
  have hseed := seedIc_slots reg (X.name site) .cold hrs (fun e he => by cases he)
  simp only [seed, ← hb, hi, Option.map_some]
  refine ⟨rfl, rfl, ⟨s, (hs.grow hx).rebase⟩, fun site' shape idx hm => ?_⟩
  have hold := h.sound.grow hx w.base.cells site' shape idx
  simp only at hm
  split at hm
  · exact hold hm
  · by_cases hss : site' = site
    · subst hss
      rw [Function.update_self] at hm
      exact hseed _ hm
    · rw [Function.update_of_ne hss] at hm
      exact hold hm

theorem specialized_simulates_generic [BEq V] (X : Context K V) :
    (machine X true).Simulates (machine X false) (Agrees X) := by
  intro w g op ⟨hb, h⟩
  change Matches (Agrees X) (step X true w op) (step X false g op)
  cases op with
  | object op =>
    obtain ⟨s, hs⟩ := h.represented
    have hm := machine_simulates w.base.reg w.base s op hs
    simp only [step, ← hb]
    change Matches (Abstracts _) (w.base.step op) (Dict.step s op) at hm
    cases hw : w.base.step op with
    | none => trivial
    | some p =>
      obtain ⟨t, -, ht⟩ := hm.related hw
      exact ⟨rfl, rfl, ⟨t, ht.rebase⟩, h.sound.grow ht.grown p.2.cells⟩
  | getProp site i =>
    simp only [step, ← hb]
    cases hc : w.base.cells[i]? with
    | none => trivial
    | some c =>
      obtain ⟨m, hr⟩ := h.cell hc
      obtain ⟨hv, hs, hb'⟩ := getProp_spec h.sound hr site i
      refine ⟨?_, hb'.trans hb, ⟨by rw [hb']; exact h.represented, hs⟩⟩
      rw [hv, hb]
      rfl
  | setProp site i v =>
    simp only [step, ← hb]
    cases hc : w.base.cells[i]? with
    | none => trivial
    | some c =>
      obtain ⟨m, hr⟩ := h.cell hc
      exact setProp_agrees h hb hr site i v
  | seed site lists => exact seed_agrees h hb site lists

theorem agrees_init : Agrees X (IcWorld.init : IcWorld K V) .init :=
  ⟨rfl, ⟨[], .init⟩, fun _ _ _ h => by cases h⟩

/-- Over any interleaving, the caches change no answer and no object; a hit is the slot the
lookup by name returns, and a store through it is the generic store. -/
theorem inline_caches_transparent [BEq V] (X : Context K V) (ops : List (IcOp K V)) :
    (((machine X true).run .init ops).map Prod.fst =
      ((machine X false).run .init ops).map Prod.fst) ∧
    ∀ os w, (machine X true).run .init ops = some (os, w) →
      (∃ g, (machine X false).run .init ops = some (os, g) ∧ w.base = g.base) ∧
      ∀ (site i : Nat) c idx, w.base.cells[i]? = some c →
        (w.fieldIc site).lookup c.shape = some idx →
        c.storage.getIndexOf (X.name site) = some idx ∧
          c.storage.valueAt idx = c.storage.get (X.name site) ∧
          ∀ v, (c.setValueAt idx v).1 = true ∧
            vmObjectInsert w.base.reg c (X.name site) v =
              some (w.base.reg, (c.setValueAt idx v).2) := by
  have hrun := (specialized_simulates_generic X).run agrees_init ops
  refine ⟨hrun.map_fst, fun os w hw => ?_⟩
  obtain ⟨g, hg, hb, h⟩ := hrun.related hw
  refine ⟨⟨g, hg, hb⟩, fun site i c idx hc hl => ?_⟩
  obtain ⟨m, hr⟩ := h.cell hc
  have hi := h.sound.hit hr hl
  obtain ⟨v, hv, hget⟩ := hr.valueAt_of_index hi
  exact ⟨hi, hv.trans hget.symm, fun v => hr.vmObjectInsert_of_index hi v⟩

end IcWorld
end AScript.Object
