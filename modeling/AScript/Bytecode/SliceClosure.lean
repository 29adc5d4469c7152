import AScript.Bytecode.Slice

/-! The closure of a slice is the least one (`vm/bcanalysis.rs`). -/

namespace AScript.Bytecode

open AScript.Lib AScript.Syntax

theorem mem_protosGlobalNames {ps : List FnProto} :
    x ∈ protosGlobalNames ps ↔ ∃ p ∈ ps, x ∈ p.globalNames := by
  induction ps with
  | nil => simp [protosGlobalNames]
  | cons p ps ih => simp [protosGlobalNames, ih]

theorem mem_getGlobals {c : Chunk} : x ∈ c.instructions.filterMap c.getGlobal? ↔
    ∃ k, (Op.getGlobal, k) ∈ c.instructions ∧ c.nameAt k = some x := by
  rw [List.mem_filterMap]
  constructor
  · rintro ⟨⟨op, k⟩, hi, hx⟩
    unfold Chunk.getGlobal? at hx
    split at hx
    · next h =>
      cases h
      exact ⟨_, hi, hx⟩
    · cases hx
  · rintro ⟨k, hi, hx⟩
    exact ⟨_, hi, hx⟩

theorem globalNames_eq (p : FnProto) : p.globalNames = collectGetGlobalNames p.chunk := by
  cases p
  rfl

mutual

theorem FnProto.readsGlobal (p : FnProto) (h : x ∈ p.globalNames) : p.chunk.ReadsGlobal x := by
  cases p with
  | mk s t ps =>
    rw [FnProto.globalNames, List.mem_append, mem_getGlobals] at h
    rcases h with ⟨k, hi, hx⟩ | h
    · exact .here hi hx
    · obtain ⟨p, hp, hx⟩ := protos_readsGlobal ps h
      exact .nested hp hx

theorem protos_readsGlobal (ps : List FnProto) (h : x ∈ protosGlobalNames ps) :
    ∃ p ∈ ps, p.chunk.ReadsGlobal x := by
  cases ps with
  | nil => cases h
  | cons p ps =>
    rw [protosGlobalNames, List.mem_append] at h
    rcases h with h | h
    · exact ⟨p, .head _, p.readsGlobal h⟩
    · obtain ⟨q, hq, hx⟩ := protos_readsGlobal ps h
      exact ⟨q, .tail _ hq, hx⟩

end

theorem mem_collectGetGlobalNames {c : Chunk} :
    x ∈ collectGetGlobalNames c ↔ c.ReadsGlobal x := by
  constructor
  · rw [collectGetGlobalNames, List.mem_append, mem_getGlobals]
    rintro (⟨k, hi, hx⟩ | h)
    · exact .here hi hx
    · obtain ⟨p, hp, hx⟩ := protos_readsGlobal _ h
      exact .nested hp hx
  · intro h
    induction h with
    | here hi hx => exact List.mem_append_left _ (mem_getGlobals.mpr ⟨_, hi, hx⟩)
    | @nested p x c hp _ ih =>
      rw [← globalNames_eq] at ih
      exact List.mem_append_right _ (mem_protosGlobalNames.mpr ⟨p, hp, ih⟩)

theorem mem_collectRangeRefs {top : Chunk} : x ∈ collectRangeRefs top start stop ↔
    CodeReads top name (.computedConst start stop) x := by
  rw [collectRangeRefs, List.mem_flatMap]
  constructor
  · rintro ⟨⟨op, k⟩, hi, hx⟩
    split at hx
    · next h =>
      cases h
      exact .initializer hi (Option.mem_toList.mp hx)
    · next h =>
      cases h
      split at hx
      · next hp => exact .initializerClosure hi hp (mem_collectGetGlobalNames.mp hx)
      · cases hx
    · cases hx
  · intro h
    cases h with
    | initializer hi hx => exact ⟨_, hi, Option.mem_toList.mpr hx⟩
    | @initializerClosure k _ _ p _ hi hp hx =>
      refine ⟨_, hi, ?_⟩
      simp only [hp]
      exact mem_collectGetGlobalNames.mpr hx

theorem mem_collectTypesNamedRefs {ts : List Ty} :
    x ∈ collectTypesNamedRefs ts ↔ ∃ t ∈ ts, x ∈ collectTypeNamedRefs t := by
  induction ts with
  | nil => simp [collectTypesNamedRefs]
  | cons t ts ih => simp [collectTypesNamedRefs, ih]

mutual

theorem mentions_of_mem (t : Ty) (h : x ∈ collectTypeNamedRefs t) : Ty.Mentions x t := by
  cases t with
  | named name =>
    obtain rfl := List.mem_singleton.mp h
    exact .named
  | optional t => exact .optional (mentions_of_mem t h)
  | array t => exact .array (mentions_of_mem t h)
  | result t => exact .result (mentions_of_mem t h)
  | future t => exact .future (mentions_of_mem t h)
  | map k v =>
    rcases List.mem_append.mp h with h | h
    · exact .mapKey (mentions_of_mem k h)
    · exact .mapValue (mentions_of_mem v h)
  | union s t =>
    rcases List.mem_append.mp h with h | h
    · exact .unionLeft (mentions_of_mem s h)
    · exact .unionRight (mentions_of_mem t h)
  | tuple ts =>
    obtain ⟨t, ht, hx⟩ := mentions_of_mems ts h
    exact .tuple ht hx
  | fnSig ps r =>
    rcases List.mem_append.mp h with h | h
    · obtain ⟨t, ht, hx⟩ := mentions_of_mems ps h
      exact .fnParam ht hx
    · exact .fnRet (mentions_of_mem r h)
  | _ => exact nomatch h

theorem mentions_of_mems (ts : List Ty) (h : x ∈ collectTypesNamedRefs ts) :
    ∃ t ∈ ts, Ty.Mentions x t := by
  cases ts with
  | nil => cases h
  | cons t ts =>
    rcases List.mem_append.mp h with h | h
    · exact ⟨t, .head _, mentions_of_mem t h⟩
    · obtain ⟨u, hu, hx⟩ := mentions_of_mems ts h
      exact ⟨u, .tail _ hu, hx⟩

end

theorem mem_collectTypeNamedRefs {t : Ty} : x ∈ collectTypeNamedRefs t ↔ Ty.Mentions x t := by
  refine ⟨mentions_of_mem t, fun h => ?_⟩
  induction h with
  | named => exact .head _
  | optional _ ih | array _ ih | result _ ih | future _ ih => exact ih
  | mapKey _ ih | unionLeft _ ih => exact List.mem_append_left _ ih
  | mapValue _ ih | unionRight _ ih | fnRet _ ih => exact List.mem_append_right _ ih
  | tuple ht _ ih => exact mem_collectTypesNamedRefs.mpr ⟨_, ht, ih⟩
  | fnParam ht _ ih => exact List.mem_append_left _ (mem_collectTypesNamedRefs.mpr ⟨_, ht, ih⟩)

theorem mem_types {ts : List Ty} :
    x ∈ collectTypesNamedRefs ts ↔ ∃ t ∈ ts, Ty.Mentions x t := by
  rw [mem_collectTypesNamedRefs]
  exact exists_congr fun t => and_congr_right fun _ => mem_collectTypeNamedRefs

section Group

variable {top : Chunk} {name : String}

theorem locateFrom_cons (run : List (Op × Nat)) (op : Op) (k : Nat) (is : List (Op × Nat)) :
    locateFrom top name run ((op, k) :: is) =
      match op with
      | .closure | .getGlobal => locateFrom top name (run ++ [(op, k)]) is
      | .«class» =>
        match top.classProtos[k]? with
        | none => .error .protoIndexOutOfRange
        | some cp =>
          if cp.template.name = name then decodeClassGroup top run cp
          else locateFrom top name [] is
      | _ => locateFrom top name [] is := rfl

theorem locateFrom_before {before : List (Op × Nat)} (run rest : List (Op × Nat))
    (h : ∀ j, (Op.«class», j) ∈ before →
      ∃ cp', top.classProtos[j]? = some cp' ∧ cp'.template.name ≠ name) :
    ∃ run', locateFrom top name run (before ++ rest) = locateFrom top name run' rest := by
  induction before generalizing run with
  | nil => exact ⟨run, rfl⟩
  | cons i before ih =>
    obtain ⟨op, k⟩ := i
    have ih := fun run => ih run fun j hj => h j (.tail _ hj)
    rw [List.cons_append, locateFrom_cons]
    split
    · exact ih _
    · exact ih _
    · obtain ⟨cp', hcp, hne⟩ := h k (.head _)
      simp only [hcp, if_neg hne]
      exact ih _
    · exact ih _

theorem locateFrom_run {is : List (Op × Nat)} (run rest : List (Op × Nat))
    (h : ∀ i ∈ is, i.1 = .closure ∨ i.1 = .getGlobal) :
    locateFrom top name run (is ++ rest) = locateFrom top name (run ++ is) rest := by
  induction is generalizing run with
  | nil => rw [List.append_nil, List.nil_append]
  | cons i is ih =>
    obtain ⟨op, k⟩ := i
    have ih := ih (run ++ [(op, k)]) fun i hi => h i (.tail _ hi)
    rw [List.append_assoc, List.singleton_append] at ih
    rcases h _ (.head _) with hop | hop
    · obtain rfl : op = .closure := hop
      rw [List.cons_append, locateFrom, ih]
    · obtain rfl : op = .getGlobal := hop
      rw [List.cons_append, locateFrom, ih]

theorem closures_ops {closures : List (Op × Nat)} {members : List FnProto}
    (h : List.Forall₂ (fun i p => i.1 = .closure ∧ top.protos[i.2]? = some p) closures members) :
    ∀ i ∈ closures, i.1 = .closure := by
  induction h with
  | nil => exact nofun
  | cons hip _ ih => exact List.forall_mem_cons.mpr ⟨hip.1, ih⟩

theorem mapM_decodeMember {closures : List (Op × Nat)} {members : List FnProto}
    (h : List.Forall₂ (fun i p => i.1 = .closure ∧ top.protos[i.2]? = some p) closures members)
    (htop : ∀ p ∈ members, p.chunk.upvalues = []) :
    closures.mapM (decodeMember top) = .ok (members.map .closure) := by
  induction h with
  | nil => rfl
  | @cons i p is ps hip _ ih =>
    obtain ⟨op, k⟩ := i
    obtain ⟨hop, hp⟩ := hip
    obtain rfl : op = .closure := hop
    have hdecode : decodeMember top (.closure, k) = .ok (.closure p) := by
      rw [decodeMember]
      dsimp only at hp
      rw [hp]
      dsimp only
      rw [htop p (.head _)]
      rfl
    rw [List.mapM_cons, hdecode, ih fun q hq => htop q (.tail _ hq)]
    rfl

theorem drop_group (run group : List (Op × Nat)) :
    (run ++ group).drop ((run ++ group).length - group.length) = group := by
  rw [List.length_append, Nat.add_sub_cancel, List.drop_left]

theorem decodeClassGroup_plain {run group : List (Op × Nat)} {cp : ClassProto}
    (hsuper : cp.hasSuper = false) (hlen : group.length = cp.closures)
    (hdecode : group.mapM (decodeMember top) = .ok ms) :
    decodeClassGroup top (run ++ group) cp = .ok (ms, cp) := by
  have hexpected : cp.closures + cp.hasSuper.toNat = group.length := by rw [hsuper, hlen]; rfl
  have hle : ¬ (run ++ group).length < group.length := by rw [List.length_append]; omega
  simp only [decodeClassGroup, hexpected, drop_group, if_neg hle]
  rw [hsuper, hdecode]
  rfl

theorem decodeClassGroup_super {run group : List (Op × Nat)} {cp : ClassProto}
    (hsuper : cp.hasSuper = true) (hlen : group.length = cp.closures)
    (hname : top.nameAt s = some x) (hdecode : group.mapM (decodeMember top) = .ok ms) :
    decodeClassGroup top (run ++ (.getGlobal, s) :: group) cp =
      .ok (.superGlobal x :: ms, cp) := by
  have hexpected : cp.closures + cp.hasSuper.toNat = ((Op.getGlobal, s) :: group).length := by
    rw [hsuper, List.length_cons, hlen]
    rfl
  have hle : ¬ (run ++ (Op.getGlobal, s) :: group).length <
    ((Op.getGlobal, s) :: group).length := by
    rw [List.length_append]
    omega
  simp only [decodeClassGroup, hexpected, drop_group, if_neg hle]
  rw [hsuper, hname, hdecode]
  rfl

theorem ClassGroup.locate (h : ClassGroup top name superclass members cp) :
    locateClassGroup top name =
      .ok ((superclass.toList.map .superGlobal) ++ members.map .closure, cp) := by
  obtain ⟨before, pushes, closures, k, global, after, hcode, hcp, -, hpush, hmem, hbefore⟩ := h.code
  obtain ⟨run, hrun⟩ := locateFrom_before [] (pushes ++ (closures ++
    (.«class», k) :: (.defineGlobal, global) :: after)) hbefore
  have hpushes : ∀ i ∈ pushes, i.1 = .closure ∨ i.1 = .getGlobal := by
    rcases hpush with ⟨-, rfl⟩ | ⟨x, s, -, rfl, -⟩
    · exact nofun
    · exact List.forall_mem_singleton.mpr (.inr rfl)
  have hclosures : ∀ i ∈ closures, i.1 = .closure ∨ i.1 = .getGlobal :=
    fun i hi => .inl (closures_ops hmem i hi)
  have hlen : closures.length = cp.closures := by rw [hmem.length_eq, h.count]
  have hdecode := mapM_decodeMember hmem h.top_level
  rw [locateClassGroup, hcode, hrun, locateFrom_run _ _ hpushes, locateFrom_run _ _ hclosures,
    locateFrom_cons]
  simp only [hcp, if_pos h.template]
  rcases hpush with ⟨rfl, rfl⟩ | ⟨x, s, rfl, rfl, hx⟩
  · rw [List.append_nil, decodeClassGroup_plain h.super hlen hdecode]
    rfl
  · rw [List.append_assoc, List.singleton_append,
      decodeClassGroup_super h.super hlen hx hdecode]
    rfl

end Group

section Closure

variable {top : Chunk} {defs : IndexMap String TopDef}

/-- The classes of the map are compiled ones, each the first of its name. -/
def ClassesFound (top : Chunk) (defs : IndexMap String TopDef) : Prop :=
  ∀ name, defs.get name = some .«class» →
    ∃ superclass members cp, ClassGroup top name superclass members cp

theorem mem_classRefs (h : ClassGroup top name superclass members cp) :
    x ∈ collectDefRefs top .«class» name ↔
      superclass = some x ∨ (∃ p ∈ members, p.chunk.ReadsGlobal x) ∨
        ∃ t ∈ cp.fieldTypes, Ty.Mentions x t := by
  simp only [collectDefRefs, h.locate]
  rw [List.mem_append, mem_types, List.flatMap_append, List.mem_append, or_assoc]
  refine or_congr ?_ (or_congr_left ?_)
  · cases superclass with
    | none => simp
    | some y => simp [GroupMember.refs, eq_comm]
  · rw [List.flatMap_map, List.mem_flatMap]
    exact exists_congr fun p => and_congr_right fun _ => mem_collectGetGlobalNames

theorem mem_classRefs_iff (h : ClassGroup top name superclass members cp) :
    x ∈ collectDefRefs top .«class» name ↔ CodeReads top name .«class» x := by
  constructor
  · rw [mem_classRefs h]
    rintro (rfl | ⟨p, hp, hx⟩ | ⟨t, ht, hx⟩)
    · exact .superclass h
    · exact .member h hp hx
    · exact .field h ht hx
  · intro hr
    cases hr with
    | superclass h => exact (mem_classRefs h).mpr (.inl rfl)
    | member h hp hx => exact (mem_classRefs h).mpr (.inr (.inl ⟨_, hp, hx⟩))
    | field h ht hx => exact (mem_classRefs h).mpr (.inr (.inr ⟨_, ht, hx⟩))

theorem mem_collectDefRefs (hc : ClassesFound top defs) (hd : defs.get name = some d) :
    x ∈ collectDefRefs top d name ↔ Keeps top name d x := by
  cases d with
  | fn p =>
    refine mem_collectGetGlobalNames.trans ⟨fun h => .reads (.body h), fun h => ?_⟩
    cases h with
    | reads h =>
      cases h
      assumption
  | computedConst start stop =>
    have hrefs : x ∈ collectRangeRefs top start stop ↔
        CodeReads top name (.computedConst start stop) x := mem_collectRangeRefs
    refine hrefs.trans ⟨.reads, fun h => ?_⟩
    cases h
    assumption
  | «class» =>
    obtain ⟨superclass, members, cp, hgroup⟩ := hc name hd
    refine (mem_classRefs_iff hgroup).trans ⟨.reads, fun h => ?_⟩
    cases h
    assumption
  | interface p =>
    refine ⟨fun h => .reads (.parent h), fun h => ?_⟩
    cases h with
    | reads h =>
      cases h
      assumption
  | const v =>
    refine mem_types.trans ⟨fun ⟨t, ht, hx⟩ => .payload ht hx, fun h => ?_⟩
    cases h with
    | reads h => cases h
    | payload ht hx => exact ⟨_, ht, hx⟩

theorem mem_refsOf (hc : ClassesFound top defs) : x ∈ refsOf top defs name ↔
    ∃ d, defs.get name = some d ∧ Keeps top name d x := by
  rw [refsOf]
  cases hd : defs.get name with
  | none => simp
  | some d => simp [mem_collectDefRefs hc hd]

/-- The definitions of a slice are the least ones with the entries and all that is kept with
each of them. -/
theorem compute_closure_least (top : Chunk) (defs : IndexMap String TopDef) (roots : List String)
    (hc : ClassesFound top defs) :
    CoversEntries defs (Keeps top) roots (· ∈ computeClosure top defs roots) ∧
      ∀ S, CoversEntries defs (Keeps top) roots S →
        ∀ x ∈ computeClosure top defs roots, x ∈ defs.keys → S x := by
  obtain ⟨hroots, hclosed, hleast⟩ : (∀ x ∈ roots.reverse, x ∈ computeClosure top defs roots) ∧
      Closure.Closed defs.keys (refsOf top defs) (· ∈ computeClosure top defs roots) ∧ _ :=
    Closure.visit_least roots.reverse
  refine ⟨⟨fun x hx => hroots x (List.mem_reverse.mpr hx), fun n d x hn hd hk hx => ?_⟩,
    fun S hS x hx hxk => ?_⟩
  · refine hclosed n hn ?_ x ((mem_refsOf hc).mpr ⟨d, hd, hk⟩)
    exact (defs.isSome_get_iff n).mp (by rw [hd]; rfl)
  · have hcover := hleast (fun x => x ∈ defs.keys → S x)
      (fun x hx _ => hS.roots x (List.mem_reverse.mp hx))
      fun n hn hnk x hx hxk => by
        obtain ⟨d, hd, hkeep⟩ := (mem_refsOf hc).mp hx
        exact hS.step n d x (hn hnk) hd hkeep hxk
    exact hcover x hx hxk

end Closure

/-- An enum with a payload of a class, and the class. -/
def enumChunk : Chunk :=
  { Chunk.new with
    code := [0, 0, 0, 14, 1, 0, 0, 64, 0, 0, 14, 2, 0, 0, 1, 47]
    consts := [.enum "E" [("V", "E", "V", .nil, true)] [("V", [(some "p", .named "P")])],
      .str "E", .str "P"]
    classProtos := [⟨⟨"P", false, .empty⟩, [], [], [], [], [], false⟩] }

def enumDefs : IndexMap String TopDef :=
  ⟨[("E", .const (.enum "E" [("V", "E", "V", .nil, true)] [("V", [(some "p", .named "P")])])),
    ("P", .«class»)], by decide⟩

theorem instructions_enumChunk : enumChunk.instructions =
    [(.const, 0), (.defineGlobal, 1), (.«class», 0),
    (.defineGlobal, 2), (.nil, 0), (.«return», 0)] := by decide

theorem get_enumDefs (h : enumDefs.get name = some d) :
    name = "E" ∧ d = .const (.enum "E" [("V", "E", "V", .nil, true)]
      [("V", [(some "p", .named "P")])]) ∨ name = "P" ∧ d = .«class» := by
  have hmem : name ∈ enumDefs.keys := (enumDefs.isSome_get_iff name).mp (by rw [h]; rfl)
  rcases List.mem_cons.mp hmem with rfl | hmem
  · exact .inl ⟨rfl, (Option.some.inj h).symm⟩
  · obtain rfl := List.mem_singleton.mp hmem
    exact .inr ⟨rfl, (Option.some.inj h).symm⟩

theorem classesFound_enumDefs : ClassesFound enumChunk enumDefs := by
  intro name h
  rcases get_enumDefs h with ⟨-, h⟩ | ⟨rfl, -⟩
  · cases h
  · refine ⟨none, [], _, rfl, rfl, rfl, nofun, [(.const, 0), (.defineGlobal, 1)], [], [], 0, 2,
      [(.nil, 0), (.«return», 0)], instructions_enumChunk, rfl, rfl, .inl ⟨rfl, rfl⟩, .nil,
        fun j hj => ?_⟩
    simp at hj

theorem compute_closure_enum :
    CoversEntries enumDefs (Keeps enumChunk) ["E"] (· ∈ computeClosure enumChunk enumDefs ["E"]) ∧
      ∀ S, CoversEntries enumDefs (Keeps enumChunk) ["E"] S →
        ∀ x ∈ computeClosure enumChunk enumDefs ["E"], x ∈ enumDefs.keys → S x :=
  compute_closure_least enumChunk enumDefs ["E"] classesFound_enumDefs

/-- The class of a payload is in the closure of the enum, though no code of the enum reads it. -/
theorem payload_type_kept : "P" ∈ computeClosure enumChunk enumDefs ["E"] ∧ "P" ∈ enumDefs.keys ∧
    CoversEntries enumDefs (CodeReads enumChunk) ["E"] (· = "E") := by
  refine ⟨?_, by decide, fun x hx => List.mem_singleton.mp hx, ?_⟩
  · obtain ⟨hroots, hclosed, -⟩ : (∀ x ∈ ["E"], x ∈ computeClosure enumChunk enumDefs ["E"]) ∧
        Closure.Closed enumDefs.keys (refsOf enumChunk enumDefs)
          (· ∈ computeClosure enumChunk enumDefs ["E"]) ∧ _ := Closure.visit_least ["E"]
    exact hclosed "E" (hroots "E" (.head _)) (by decide) "P" (.head _)
  · rintro n d x rfl hd hread -
    rcases get_enumDefs hd with ⟨-, rfl⟩ | ⟨h, -⟩
    · cases hread
    · exact absurd h (by decide)

end AScript.Bytecode
