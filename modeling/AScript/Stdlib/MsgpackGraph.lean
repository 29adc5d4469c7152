import AScript.Stdlib.MsgpackRoundTrip

namespace AScript.Stdlib.Msgpack

open AScript.Lib AScript.Runtime AScript.Worker

variable {D : Type} (x : Printing D)

def IsData : Tree D → Prop
  | .handle _ | .loop => False
  | _ => True

theorem succeeds_map {r : Except ε α} {f : α → β} : Succeeds (r.map f) ↔ Succeeds r := by
  cases r with
  | ok a => exact ⟨fun _ => succeeds_ok, fun _ => succeeds_ok⟩
  | error e => exact ⟨fun h => absurd h not_succeeds_error, fun h => absurd h not_succeeds_error⟩

theorem succeeds_encode (t : Tree D) : Succeeds (encode x t) ↔ t.All IsData := by
  induction t using Tree.induct with
  | h t ih =>
    rw [Tree.all_iff]
    cases t with
    | handle => exact ⟨fun h => absurd h not_succeeds_error, fun h => h.1.elim⟩
    | loop => exact ⟨fun h => absurd h not_succeeds_error, fun h => h.1.elim⟩
    | array items =>
      rw [encode, encodeItems_eq, succeeds_map, succeeds_mapM]
      exact (forall₂_congr ih).trans (and_iff_right trivial).symm
    | object entries =>
      rw [encode, encodeEntries_eq, succeeds_map, succeeds_mapM]
      refine (forall₂_congr fun e he => ?_).trans (List.forall_mem_map.symm.trans
        (and_iff_right trivial).symm)
      rw [succeeds_map, ih e.2 (List.mem_map_of_mem he)]
    | map entries =>
      rw [encode, encodePairs_eq, succeeds_map, succeeds_mapM]
      refine (forall₂_congr fun e he => ?_).trans (List.forall_mem_map.symm.trans
        (and_iff_right trivial).symm)
      rw [succeeds_map, ih e.2 (List.mem_map_of_mem he)]
    | _ => exact ⟨fun _ => ⟨trivial, fun _ h => by cases h⟩, fun _ => succeeds_ok⟩

variable (slots : List (Slot D))

theorem walk {motive : List Nat → Val D Nat → Prop} (h : ∀ seen v, (∀ a, v = .other (.cell a) →
    a ∉ seen → ∀ w ∈ (heapOf slots a).values, motive (a :: seen) w) → motive seen v)
    (seen : List Nat) (v : Val D Nat) : motive seen v := by
  induction hn : ((List.range slots.length).filter (· ∉ seen)).length using
    Nat.strong_induction_on generalizing seen v with
  | h n ih =>
    subst hn
    refine h seen v fun a _ ha w hw => ?_
    cases hslot : slots[a]? with
    | none =>
      rw [heapOf, hslot] at hw
      cases hw
    | some slot => exact ih _ (unseen_lt ha hslot) (a :: seen) w rfl

theorem Occurs.trans {h : Heap D A} (hv : Occurs h u v) (hw : Occurs h v w) : Occurs h u w := by
  induction hw with
  | root => exact hv
  | inside _ hc hmem ih => exact .inside ih hc hmem

theorem Reached.of_inside {h : Heap D A} (hc : container? v = some a) (hw : w ∈ (h a).values)
    (hb : Reached h w b) : Reached h v b := by
  obtain ⟨u, hu, hcu⟩ := hb
  exact ⟨u, Occurs.trans (.inside .root hc hw) hu, hcu⟩

variable [DecidableEq D]

theorem toMp_cell (seen : List Nat) (a : Nat) : toMp x slots seen (.other (.cell a)) =
    match heapOf slots a with
    | .bytes raw => .ok (.binary raw)
    | .instance .. => .error (unrepresentable "instance")
    | .array vs =>
      if a ∈ seen then .error cyclic else (vs.mapM (toMp x slots (a :: seen))).map .array
    | .set m => if a ∈ seen then .error cyclic else .ok (.array (m.keys.map (keyToMp x)))
    | .object m =>
      if a ∈ seen then .error cyclic
      else (m.entries.mapM fun e =>
        (toMp x slots (a :: seen) e.2).map (Mp.string e.1, ·)).map .map
    | .map m =>
      if a ∈ seen then .error cyclic
      else (m.entries.mapM fun e =>
        (toMp x slots (a :: seen) e.2).map (keyToMp x e.1, ·)).map .map := by
  rw [toMp, heapOf]
  split
  next hnone => rw [hnone]
  next slot hslot =>
    obtain ⟨cell, frozen⟩ := slot
    rw [hslot]
    cases cell <;> rfl

theorem unfold_cell (seen : List Nat) (a : Nat) : unfold x slots seen (.other (.cell a)) =
    match heapOf slots a with
    | .bytes raw => .bytes raw
    | .instance .. => .handle "instance"
    | .set m => if a ∈ seen then .loop else .set m.keys
    | .array vs => if a ∈ seen then .loop else .array (vs.map (unfold x slots (a :: seen)))
    | .object m =>
      if a ∈ seen then .loop
      else .object (m.entries.map fun e => (e.1, unfold x slots (a :: seen) e.2))
    | .map m =>
      if a ∈ seen then .loop
      else .map (m.entries.map fun e => (e.1, unfold x slots (a :: seen) e.2)) := by
  rw [unfold, heapOf]
  split
  next hnone => rw [hnone]
  next slot hslot =>
    obtain ⟨cell, frozen⟩ := slot
    rw [hslot]
    cases cell <;> rfl

theorem toMp_eq (seen : List Nat) (v : Val D Nat) :
    toMp x slots seen v = encode x (unfold x slots seen v) := by
  induction seen, v using walk slots with
  | h seen v ih =>
    cases v with
    | other o =>
      cases o with
      | cell a =>
        have hin := ih a rfl
        rw [toMp_cell, unfold_cell]
        cases hcell : heapOf slots a with
        | set m => simp only; split <;> rfl
        | array vs =>
          simp only
          split
          next => rfl
          next ha =>
            rw [hcell] at hin
            rw [encode, encodeItems_eq, List.mapM_map]
            exact congrArg (Except.map Mp.array) (mapM_congr (hin ha))
        | object m =>
          simp only
          split
          next => rfl
          next ha =>
            rw [hcell] at hin
            rw [encode, encodeEntries_eq, List.mapM_map]
            refine congrArg (Except.map Mp.map) (mapM_congr fun e he => ?_)
            rw [hin ha e.2 (List.mem_map_of_mem he)]
            rfl
        | map m =>
          simp only
          split
          next => rfl
          next ha =>
            rw [hcell] at hin
            rw [encode, encodePairs_eq, List.mapM_map]
            refine congrArg (Except.map Mp.map) (mapM_congr fun e he => ?_)
            rw [hin ha e.2 (List.mem_map_of_mem he)]
            rfl
        | _ => rfl
      | _ =>
        rw [toMp, unfold]
        try rfl
    | _ =>
      rw [toMp, unfold]
      rfl

/-- A value that is not data: code, a regular expression, an enum variant, an instance, or a deeply
frozen value with one of those in it. -/
def IsHandle : Val D Nat → Prop
  | .other (.cell a) => (heapOf slots a).kind = .instance
  | .other (.shared node) => ¬ (frozenTree (x.node node)).All IsData
  | .other _ => True
  | _ => False

/-- A container among those reached from what is in it. -/
def Cyclic (h : Heap D Nat) (v : Val D Nat) : Prop :=
  ∃ a, Reached h v a ∧ ∃ w ∈ (h a).values, Reached h w a

theorem succeeds_toMp_cell (seen : List Nat) (a : Nat) :
    Succeeds (toMp x slots seen (.other (.cell a))) ↔ (heapOf slots a).kind ≠ .instance ∧
      ((heapOf slots a).kind ≠ .bytes → a ∉ seen) ∧
      ∀ v ∈ (heapOf slots a).values, Succeeds (toMp x slots (a :: seen) v) := by
  rw [toMp_cell]
  cases heapOf slots a with
  | bytes raw => simp [Cell.kind, Cell.values]
  | array vs =>
    by_cases ha : a ∈ seen <;>
      simp [ha, Cell.kind, Cell.values, succeeds_map, succeeds_mapM]
  | set m => by_cases ha : a ∈ seen <;> simp [ha, Cell.kind, Cell.values]
  | object m | map m =>
    by_cases ha : a ∈ seen
    · simp [ha, Cell.kind]
    · simp only [if_neg ha, succeeds_map, succeeds_mapM]
      exact ⟨fun h => ⟨fun h => (by cases h), fun _ => ha, List.forall_mem_map.mpr h⟩,
        fun h e he => h.2.2 e.2 (List.mem_map_of_mem he)⟩
  | _ => simp [Cell.kind]

theorem succeeds_toMp_handle (seen : List Nat) {v : Val D Nat} (h : IsHandle x slots v) :
    ¬ Succeeds (toMp x slots seen v) := by
  cases v with
  | other o =>
    cases o with
    | cell a => exact fun hs => ((succeeds_toMp_cell x slots seen a).mp hs).1 h
    | shared node =>
      rw [toMp, succeeds_encode]
      exact h
    | _ =>
      rw [toMp]
      exact not_succeeds_error
  | _ => exact h.elim

theorem cell_of_succeeds (hs : Succeeds (toMp x slots seen v)) (hc : container? v = some a) :
    v = .other (.cell a) := by
  cases v with
  | other o =>
    cases o with
    | cell b => rw [Option.some.inj hc]
    | «variant» => exact absurd hs (succeeds_toMp_handle x slots seen trivial)
    | _ => cases hc
  | _ => cases hc

theorem succeeds_occurs (hs : Succeeds (toMp x slots seen v)) (ho : Occurs (heapOf slots) v w) :
    ∃ seen', seen ⊆ seen' ∧ Succeeds (toMp x slots seen' w) := by
  induction ho with
  | root => exact ⟨seen, fun _ h => h, hs⟩
  | @inside w a v' _ hc hv ih =>
    obtain ⟨seen', hsub, hw⟩ := ih
    obtain rfl := cell_of_succeeds x slots hw hc
    exact ⟨a :: seen', fun _ h => List.mem_cons_of_mem _ (hsub h),
      ((succeeds_toMp_cell x slots seen' a).mp hw).2.2 v' hv⟩

theorem acyclic_of_succeeds (hs : Succeeds (toMp x slots seen v)) : ¬ Cyclic (heapOf slots) v := by
  rintro ⟨a, ⟨u, hu, hcu⟩, w, hw, u', hu', hcu'⟩
  -- The container is begun once, and again further in.
  obtain ⟨seen₁, -, hs₁⟩ := succeeds_occurs x slots hs hu
  obtain rfl := cell_of_succeeds x slots hs₁ hcu
  have hin := ((succeeds_toMp_cell x slots seen₁ a).mp hs₁).2.2 w hw
  obtain ⟨seen₂, hsub, hs₂⟩ := succeeds_occurs x slots hin hu'
  obtain rfl := cell_of_succeeds x slots hs₂ hcu'
  refine ((succeeds_toMp_cell x slots seen₂ a).mp hs₂).2.1 ?_ (hsub List.mem_cons_self)
  intro hbytes
  cases hcell : heapOf slots a with
  | bytes raw =>
    rw [hcell] at hw
    cases hw
  | _ => simp [hcell, Cell.kind] at hbytes

theorem succeeds_of_data (seen : List Nat) (v : Val D Nat)
    (hdata : ∀ w, Occurs (heapOf slots) v w → ¬ IsHandle x slots w)
    (hacyclic : ¬ Cyclic (heapOf slots) v) (hseen : ∀ a, Reached (heapOf slots) v a → a ∉ seen) :
    Succeeds (toMp x slots seen v) := by
  induction seen, v using walk slots with
  | h seen v ih =>
    cases v with
    | other o =>
      cases o with
      | cell a =>
        have hself : Reached (heapOf slots) (.other (.cell a) : Val D Nat) a := ⟨_, .root, rfl⟩
        rw [succeeds_toMp_cell]
        refine ⟨hdata _ .root, fun _ => hseen a hself, fun w hw => ?_⟩
        have hin {b} (hb : Reached (heapOf slots) w b) :
            Reached (heapOf slots) (.other (.cell a)) b := Reached.of_inside rfl hw hb
        refine ih a rfl (hseen a hself) w hw ?_ ?_ ?_
        · exact fun u hu => hdata u (Occurs.trans (.inside .root rfl hw) hu)
        · exact fun ⟨b, hb, hcycle⟩ => hacyclic ⟨b, hin hb, hcycle⟩
        · intro b hb
          rw [List.mem_cons, not_or]
          refine ⟨?_, hseen b (hin hb)⟩
          rintro rfl
          exact hacyclic ⟨b, hself, w, hw, hb⟩
      | shared node =>
        rw [toMp, succeeds_encode]
        exact Classical.not_not.mp (hdata _ .root)
      | _ => exact (hdata _ .root trivial).elim
    | _ =>
      rw [toMp]
      exact succeeds_ok

theorem toMp_error_iff (v : Val D Nat) : (∃ e, toMp x slots [] v = .error e) ↔
    (∃ w, Occurs (heapOf slots) v w ∧ IsHandle x slots w) ∨ Cyclic (heapOf slots) v := by
  have hfail : (∃ e, toMp x slots [] v = .error e) ↔ ¬ Succeeds (toMp x slots [] v) := by
    cases toMp x slots [] v with
    | ok mp => exact ⟨nofun, fun h => absurd succeeds_ok h⟩
    | error e => exact ⟨fun _ => not_succeeds_error, fun _ => ⟨e, rfl⟩⟩
  rw [hfail]
  constructor
  · intro hs
    by_contra hno
    obtain ⟨hdata, hacyclic⟩ := not_or.mp hno
    exact hs (succeeds_of_data x slots [] v (fun w ho hw => hdata ⟨w, ho, hw⟩) hacyclic
      fun _ _ => List.not_mem_nil)
  · rintro (⟨w, ho, hw⟩ | hcyclic) hs
    · obtain ⟨seen', -, hs'⟩ := succeeds_occurs x slots hs ho
      exact succeeds_toMp_handle x slots seen' hw hs'
    · exact acyclic_of_succeeds x slots hs hcyclic

def Tree.ofNum : Runtime.Num → Tree D
  | .int i => .int i
  | .float f => .float f

omit [DecidableEq D] in
theorem normFloat_value (f : F64) : ∃ n : Runtime.Num, (normFloat f : Tree D) = .ofNum n ∧
    n.value = f.value := by
  unfold normFloat
  split
  next h =>
    obtain ⟨i, hi⟩ := (folds_iff f).mp h
    exact ⟨.int f.toI64, rfl, by rw [toI64_of_integral hi, (integral_iff_value f i).mp hi]; rfl⟩
  next => exact ⟨.float f, rfl, rfl⟩

omit [DecidableEq D] in
theorem keysApart_map_iff {entries : List (MapKey D × Tree D)}
    (htext : Function.Injective (decimalString x)) (hnodup : (entries.map Prod.fst).Nodup)
    (hkeys : ∀ e ∈ entries, ∃ v : Value D Unit, MapKey.fromValue v = some e.1) :
    KeysApart x (.map entries) ↔ ∀ d, .decimal d ∈ entries.map Prod.fst →
      .str (decimalString x d) ∉ entries.map Prod.fst := by
  have hmap : (entries.map fun e => normKey x e.1) = (entries.map Prod.fst).map (normKey x) := by
    rw [List.map_map]
    rfl
  have hkeep {key} (hkey : key ∈ entries.map Prod.fst) (hd : ∀ d, key ≠ .decimal d) :
      normKey x key = key := by
    obtain ⟨e, he, rfl⟩ := List.mem_map.mp hkey
    have hround := (MapKey.roundtrip_iff e.1).mpr (hkeys e he)
    cases hk : e.1 with
    | num bits =>
      rw [hk] at hround
      exact Option.some.inj hround
    | decimal d => exact absurd hk (hd d)
    | _ => rfl
  rw [KeysApart, hmap]
  constructor
  · intro h d hd hstr
    cases List.inj_on_of_nodup_map h hd hstr rfl
  · intro h
    refine hnodup.map_on fun a ha b hb hab => ?_
    have hmeet {d key} (hd : .decimal d ∈ entries.map Prod.fst) (hkey : key ∈ entries.map Prod.fst)
        (hne : ∀ d, key ≠ .decimal d) : normKey x (.decimal d) ≠ normKey x key := by
      rw [hkeep hkey hne]
      rintro rfl
      exact h d hd hkey
    by_cases hda : ∃ d, a = .decimal d <;> by_cases hdb : ∃ d, b = .decimal d
    · obtain ⟨d, rfl⟩ := hda
      obtain ⟨d', rfl⟩ := hdb
      rw [htext (MapKey.str.inj hab)]
    · obtain ⟨d, rfl⟩ := hda
      exact absurd hab (hmeet ha hb (not_exists.mp hdb))
    · obtain ⟨d, rfl⟩ := hdb
      exact absurd hab.symm (hmeet hb ha (not_exists.mp hda))
    · rwa [hkeep ha (not_exists.mp hda), hkeep hb (not_exists.mp hdb)] at hab

/-- A value is written unless it leads to a handle or is cyclic. It comes back as it should, with
every number the same number, exactly when no two keys of a map in it become the same. -/
theorem toMp_roundTrip (v : Val D Nat) :
    ((∃ e, toMp x slots [] v = .error e) ↔
      (∃ w, Occurs (heapOf slots) v w ∧ IsHandle x slots w) ∨ Cyclic (heapOf slots) v) ∧
    (∀ mp, toMp x slots [] v = .ok mp →
      (fromMp mp = norm x (unfold x slots [] v) ↔ (unfold x slots [] v).All (KeysApart x))) ∧
    ∀ f : F64, ∃ n : Runtime.Num, (normFloat f : Tree D) = .ofNum n ∧ n.value = f.value := by
  refine ⟨toMp_error_iff x slots v, fun mp hmp => ?_, normFloat_value⟩
  rw [toMp_eq] at hmp
  exact fromMp_encode x _ hmp

def printsOne : Printing Unit where
  decimalText _ := ['1']
  nativeName _ := ""
  node _ := .nil

def oneTwice : IndexMap (MapKey Unit) (Val Unit Nat) :=
  ⟨[(.decimal (), .str "a"), (.str "1", .str "b")], by decide⟩

/-- The first of two entries is lost, and its place taken by the second. -/
theorem toMp_merges : ∃ mp, toMp printsOne [⟨.map oneTwice, false⟩] [] (.other (.cell 0)) = .ok mp ∧
    (fromMp mp : Tree Unit) = .object [("1", .str "b")] ∧
    norm printsOne (unfold printsOne [⟨.map oneTwice, false⟩] [] (.other (.cell 0))) =
      .object [("1", .str "a"), ("1", .str "b")] := by
  have hcell : heapOf [⟨.map oneTwice, false⟩] 0 = Cell.map oneTwice := rfl
  refine ⟨.map [(.string "1", .string "a"), (.string "1", .string "b")], ?_, rfl, ?_⟩
  · rw [toMp_cell, hcell]
    simp only [List.not_mem_nil, if_false, oneTwice, List.mapM_cons, List.mapM_nil, toMp]
    rfl
  · rw [unfold_cell, hcell]
    simp only [List.not_mem_nil, if_false, oneTwice, List.map_cons, List.map_nil, unfold]
    rfl

end AScript.Stdlib.Msgpack
