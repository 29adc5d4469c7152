import AScript.Bytecode.Globals

namespace AScript.Bytecode.Globals

open AScript.Lib

variable {w : World} {S : Type}

def Op.name : Op → Option String
  | .getGlobal (.str name) | .defineGlobal (.str name) _ | .setGlobal (.str name) => some name
  | _ => none

def siteName (code : S → Option Op) (site : S) : Option String := (code site).bind Op.name

def Sound (vm : Vm w S) (name : Option String) : GlobalCache w.V → Prop
  | .cold => True
  | .indexBound idx _ => ∃ n, name = some n ∧ vm.userGlobals.keys[idx]? = some n
  | .cached v version => ∃ n, name = some n ∧ n ∈ builtinNames ∧ v = w.builtin n ∧
    version ≤ vm.globalVersion ∧ (version = vm.globalVersion → n ∉ vm.userGlobals.keys)

structure Coherent (code : S → Option Op) (vm : Vm w S) : Prop where
  version : vm.globalVersion = vm.userGlobals.len
  structGen : vm.structGen = vm.userGlobals.len
  fits : vm.userGlobals.len ≤ maxEntries
  caches : ∀ site, Sound vm (siteName code site) (vm.caches site)

structure Same (vm vm' : Vm w S) : Prop where
  userGlobals : vm.userGlobals = vm'.userGlobals
  classEnv : vm.classEnv = vm'.classEnv
  version : vm.globalVersion = vm'.globalVersion
  structGen : vm.structGen = vm'.structGen

theorem Same.refl (vm : Vm w S) : Same vm vm := ⟨rfl, rfl, rfl, rfl⟩

theorem Coherent.fresh (code : S → Option Op) (env : Option w.E) :
    Coherent code (Vm.fresh env : Vm w S) :=
  ⟨rfl, rfl, Nat.zero_le _, fun _ => trivial⟩

theorem getIndexOf_iff {m : IndexMap String V} {i : Nat} {name : String} :
    m.getIndexOf name = some i ↔ m.keys[i]? = some name := by
  rw [IndexMap.getIndexOf, List.findIdx?_eq_some_iff_getElem, List.getElem?_eq_some_iff]
  refine exists_congr fun hi => ⟨fun h => beq_iff_eq.mp h.1, fun h => ⟨beq_iff_eq.mpr h, ?_⟩⟩
  intro j hj hname
  have hij := (List.Nodup.getElem_inj_iff m.keys_nodup).mp ((beq_iff_eq.mp hname).trans h.symm)
  omega

theorem getIndex_of_key {m : IndexMap String V} {i : Nat} {name : String}
    (h : m.keys[i]? = some name) : ∃ v, m.getIndex i = some (name, v) ∧ m.get name = some v := by
  rw [IndexMap.getElem?_keys, Option.map_eq_some_iff] at h
  obtain ⟨⟨k, v⟩, hv, rfl⟩ := h
  refine ⟨v, hv, ?_⟩
  have hkey : m.keys[i]? = some k := by rw [IndexMap.getElem?_keys, hv]; rfl
  rw [IndexMap.get_eq_getIndex, getIndexOf_iff.mpr hkey, Option.bind_some, hv]
  rfl

theorem exists_key {m : IndexMap String V} {name : String} (h : m.get name = some v) :
    ∃ i, m.keys[i]? = some name ∧ m.getIndex i = some (name, v) := by
  have hmem : name ∈ m.keys := by
    by_contra hno
    rw [(m.get_eq_none name).mpr hno] at h
    cases h
  obtain ⟨i, hi⟩ := List.mem_iff_getElem?.mp hmem
  obtain ⟨v', hv', hget⟩ := getIndex_of_key hi
  rw [h] at hget
  cases hget
  exact ⟨i, hi, hv'⟩

theorem getUserGlobalFull_of_key {vm : Vm w S} {slot : GlobalSlot w.V}
    (h : vm.userGlobals.keys[i]? = some name) (hv : vm.userGlobals.getIndex i = some (name, slot)) :
    vm.getUserGlobalFull name = some (i, slot.value) := by
  rw [Vm.getUserGlobalFull, getIndexOf_iff.mpr h]
  change (vm.userGlobals.getIndex i >>= _) = _
  rw [hv]
  rfl

theorem getUserGlobalFull_eq_none {vm : Vm w S} (h : name ∉ vm.userGlobals.keys) :
    vm.getUserGlobalFull name = none := by
  rw [Vm.getUserGlobalFull, (vm.userGlobals.getIndexOf_eq_none name).mpr h]
  rfl

theorem getUserGlobalFull_some {vm : Vm w S} (h : vm.getUserGlobalFull name = some (i, v)) :
    vm.userGlobals.keys[i]? = some name := by
  by_cases hmem : name ∈ vm.userGlobals.keys
  · obtain ⟨j, hj⟩ := List.mem_iff_getElem?.mp hmem
    obtain ⟨slot, hslot, -⟩ := getIndex_of_key hj
    rw [getUserGlobalFull_of_key hj hslot] at h
    obtain rfl := (Prod.mk.inj (Option.some.inj h)).1
    exact hj
  · rw [getUserGlobalFull_eq_none hmem] at h
    cases h

theorem Same.full {vm vm' : Vm w S} (h : Same vm vm') (name : String) :
    vm.getUserGlobalFull name = vm'.getUserGlobalFull name := by
  rw [Vm.getUserGlobalFull, Vm.getUserGlobalFull, h.userGlobals]

theorem Same.mutable {vm vm' : Vm w S} (h : Same vm vm') (name : String) :
    vm.userGlobalMutable name = vm'.userGlobalMutable name := by
  rw [Vm.userGlobalMutable, Vm.userGlobalMutable, h.userGlobals]

section

variable {code : S → Option Op} {vm vm' : Vm w S}

theorem Coherent.assigned (h : Coherent code vm) (idx : Nat) (slot : GlobalSlot w.V)
    (env : Option w.E) : Coherent code
      { vm with userGlobals := vm.userGlobals.setAt idx slot, classEnv := env } := by
  refine ⟨?_, ?_, ?_, fun s => ?_⟩
  · rw [IndexMap.len_setAt]
    exact h.version
  · rw [IndexMap.len_setAt]
    exact h.structGen
  · rw [IndexMap.len_setAt]
    exact h.fits
  · have hsound := h.caches s
    cases hc : vm.caches s with
    | cold => trivial
    | indexBound idx gen =>
      rw [hc] at hsound
      obtain ⟨n, hn, hkey⟩ := hsound
      exact ⟨n, hn, by rw [IndexMap.keys_setAt, hkey]⟩
    | cached v version =>
      rw [hc] at hsound
      obtain ⟨n, hn, hb, hv, hle, hfree⟩ := hsound
      exact ⟨n, hn, hb, hv, hle, fun heq => by rw [IndexMap.keys_setAt]; exact hfree heq⟩

theorem updateUserGlobal_of_key (slot : GlobalSlot w.V) (v : w.V)
    (h : vm.userGlobals.keys[i]? = some name) (hv : vm.userGlobals.get name = some slot) :
    vm.updateUserGlobal name v = { vm with
      userGlobals := vm.userGlobals.setAt i { slot with value := v }
      classEnv := vm.classEnv.map (w.assign · name v) } := by
  rw [Vm.updateUserGlobal, getIndexOf_iff.mpr h, hv]

theorem Same.assigned (hs : Same vm vm') (f : IndexMap String (GlobalSlot w.V) →
    IndexMap String (GlobalSlot w.V)) (g : Option w.E → Option w.E) :
    Same { vm with userGlobals := f vm.userGlobals, classEnv := g vm.classEnv }
      { vm' with userGlobals := f vm'.userGlobals, classEnv := g vm'.classEnv } :=
  ⟨congrArg f hs.userGlobals, congrArg g hs.classEnv, hs.version, hs.structGen⟩

theorem Coherent.index_named {site : S} (h : Coherent code vm)
    (hc : (vm.caches site).getIndex vm.structGen = some idx) : ∃ name,
      siteName code site = some name ∧ (vm.userGlobals.getIndex idx).map Prod.fst = some name := by
  have hsound := h.caches site
  cases hcache : vm.caches site with
  | cold => simp [hcache, GlobalCache.getIndex] at hc
  | cached _ _ => simp [hcache, GlobalCache.getIndex] at hc
  | indexBound i gen =>
    rw [hcache] at hsound hc
    obtain ⟨n, hn, hkey⟩ := hsound
    rw [GlobalCache.getIndex] at hc
    split at hc
    · cases hc
      exact ⟨n, hn, by rw [← IndexMap.getElem?_keys, hkey]⟩
    · cases hc

theorem Coherent.builtin_free {site : S} (h : Coherent code vm)
    (hc : (vm.caches site).get vm.globalVersion = some v) : ∃ name,
      siteName code site = some name ∧ v = w.builtin name ∧ name ∉ vm.userGlobals.keys := by
  have hsound := h.caches site
  cases hcache : vm.caches site with
  | cold => simp [hcache, GlobalCache.get] at hc
  | indexBound _ _ => simp [hcache, GlobalCache.get] at hc
  | cached u version =>
    rw [hcache] at hsound hc
    obtain ⟨n, hn, -, hv, -, hfree⟩ := hsound
    rw [GlobalCache.get] at hc
    split at hc
    · next heq =>
      cases hc
      exact ⟨n, hn, hv, hfree heq⟩
    · cases hc

end

section

variable [DecidableEq S] {code : S → Option Op} {vm vm' : Vm w S} {site : S}

structure Agrees (code : S → Option Op) (r r' : Outcome w.V S × Vm w S) : Prop where
  outcome : r.1 = r'.1
  same : Same r.2 r'.2
  coherent : Coherent code r.2

theorem Coherent.setCache (h : Coherent code vm) (hc : Sound vm (siteName code site) c) :
    Coherent code (vm.setCache site c) := by
  refine ⟨h.version, h.structGen, h.fits, fun s => ?_⟩
  change Sound vm (siteName code s) (if s = site then c else vm.caches s)
  split
  · next hs => exact hs ▸ hc
  · exact h.caches s

theorem Same.setCache (h : Same vm vm') (c : GlobalCache w.V) : Same (vm.setCache site c) vm' :=
  ⟨h.userGlobals, h.classEnv, h.version, h.structGen⟩

theorem resolveGlobal_agrees (h : Coherent code vm) (hs : Same vm vm')
    (hname : siteName code site = some name) :
    Agrees code (resolveGlobal true vm site name) (resolveGlobal false vm' site name) := by
  unfold resolveGlobal
  rw [← hs.full]
  cases hfull : vm.getUserGlobalFull name with
  | some p =>
    obtain ⟨idx, v⟩ := p
    exact ⟨rfl, hs.setCache _, h.setCache ⟨name, hname, getUserGlobalFull_some hfull⟩⟩
  | none =>
    by_cases hb : name ∈ builtinNames
    · simp only [if_pos hb]
      refine ⟨rfl, hs.setCache _,
        h.setCache ⟨name, hname, hb, rfl, Nat.le_refl _, fun _ hmem => ?_⟩⟩
      obtain ⟨i, hi⟩ := List.mem_iff_getElem?.mp hmem
      obtain ⟨slot, hslot, -⟩ := getIndex_of_key hi
      rw [getUserGlobalFull_of_key hi hslot] at hfull
      cases hfull
    · simp only [if_neg hb]
      exact ⟨rfl, hs, h⟩

theorem getGlobal_agrees (h : Coherent code vm) (hs : Same vm vm')
    (hname : siteName code site = some name) :
    Agrees code (getGlobal true vm site (.str name)) (getGlobal false vm' site (.str name)) := by
  have hsound := h.caches site
  have hgeneric : getGlobal false vm' site (.str name) = resolveGlobal false vm' site name := rfl
  rw [hgeneric, getGlobal]
  simp only [if_true]
  cases hc : vm.caches site with
  | cold => exact resolveGlobal_agrees h hs hname
  | indexBound idx gen =>
    by_cases hgen : gen = vm.structGen
    · rw [hc, hname] at hsound
      obtain ⟨n, hn, hkey⟩ := hsound
      obtain rfl := Option.some.inj hn
      obtain ⟨slot, hslot, -⟩ := getIndex_of_key hkey
      simp only [GlobalCache.getIndex, if_pos hgen, Vm.userGlobalValueAt, hslot, Option.map_some]
      rw [resolveGlobal, ← hs.full, getUserGlobalFull_of_key hkey hslot]
      exact ⟨rfl, hs, h⟩
    · simp only [GlobalCache.getIndex, if_neg hgen, GlobalCache.get]
      exact resolveGlobal_agrees h hs hname
  | cached v version =>
    by_cases hv : version = vm.globalVersion
    · rw [hc, hname] at hsound
      obtain ⟨n, hn, hb, rfl, -, hfree⟩ := hsound
      obtain rfl := Option.some.inj hn
      simp only [GlobalCache.getIndex, GlobalCache.get, if_pos hv]
      rw [resolveGlobal, ← hs.full, getUserGlobalFull_eq_none (hfree hv)]
      simp only [if_pos hb]
      exact ⟨rfl, hs, h⟩
    · simp only [GlobalCache.getIndex, GlobalCache.get, if_neg hv]
      exact resolveGlobal_agrees h hs hname

theorem assignGlobal_agrees (h : Coherent code vm) (hs : Same vm vm')
    (hname : siteName code site = some name) (v : w.V) :
    Agrees code (assignGlobal true vm site name v) (assignGlobal false vm' site name v) := by
  unfold assignGlobal
  rw [← hs.mutable]
  cases hm : vm.userGlobalMutable name with
  | none => exact ⟨rfl, hs, h⟩
  | some b =>
    cases b with
    | false => exact ⟨rfl, hs, h⟩
    | true =>
      obtain ⟨slot, hslot, -⟩ := Option.map_eq_some_iff.mp hm
      obtain ⟨i, hi, -⟩ := exists_key hslot
      have hsame : Same (vm.updateUserGlobal name v) (vm'.updateUserGlobal name v) := by
        rw [updateUserGlobal_of_key slot v hi hslot, updateUserGlobal_of_key slot v
          (hs.userGlobals ▸ hi) (hs.userGlobals ▸ hslot)]
        exact hs.assigned (·.setAt i { slot with value := v }) (·.map (w.assign · name v))
      have hcoh : Coherent code (vm.updateUserGlobal name v) := by
        rw [updateUserGlobal_of_key slot v hi hslot]
        exact h.assigned i _ _
      simp only [if_true, Bool.false_eq_true, if_false]
      cases hfull : (vm.updateUserGlobal name v).getUserGlobalFull name with
      | none => exact ⟨rfl, hsame, hcoh⟩
      | some p =>
        exact ⟨rfl, hsame.setCache _, hcoh.setCache ⟨name, hname, getUserGlobalFull_some hfull⟩⟩

theorem setGlobal_agrees (h : Coherent code vm) (hs : Same vm vm')
    (hname : siteName code site = some name) (v : w.V) :
    Agrees code (setGlobal true vm site v (.str name))
      (setGlobal false vm' site v (.str name)) := by
  have hgeneric : setGlobal false vm' site v (.str name) = assignGlobal false vm' site name v := rfl
  rw [hgeneric, setGlobal]
  simp only [if_true]
  cases hc : (vm.caches site).getIndex vm.structGen with
  | none => exact assignGlobal_agrees h hs hname v
  | some idx =>
    have hsound := h.caches site
    cases hcache : vm.caches site with
    | cold => simp [hcache, GlobalCache.getIndex] at hc
    | cached _ _ => simp [hcache, GlobalCache.getIndex] at hc
    | indexBound i gen =>
      obtain rfl : i = idx := by
        simp only [hcache, GlobalCache.getIndex] at hc
        split at hc
        · exact Option.some.inj hc
        · cases hc
      rw [hcache, hname] at hsound
      obtain ⟨n, hn, hkey⟩ := hsound
      obtain rfl := Option.some.inj hn
      obtain ⟨slot, hslot, hget⟩ := getIndex_of_key hkey
      have hmut : vm'.userGlobalMutable name = some slot.mutable := by
        rw [← hs.mutable, Vm.userGlobalMutable, hget]
        rfl
      have hset : vm.setUserGlobalAt i v = some (if slot.mutable then
          (true, { vm with
            userGlobals := vm.userGlobals.setAt i { slot with value := v }
            classEnv := vm.classEnv.map (w.assign · name v) }) else (false, vm)) := by
        rw [Vm.setUserGlobalAt, hslot]
        change (if slot.mutable then _ else _) = _
        split <;> rfl
      rw [Option.bind_some, hset]
      cases hmutable : slot.mutable with
      | false =>
        simp only [Bool.false_eq_true, if_false]
        rw [assignGlobal, hmut, hmutable]
        exact ⟨rfl, hs, h⟩
      | true =>
        simp only [if_true]
        rw [assignGlobal, hmut, hmutable]
        simp only [Bool.false_eq_true, if_false]
        refine ⟨rfl, ?_, h.assigned i _ _⟩
        rw [updateUserGlobal_of_key slot v (hs.userGlobals ▸ hkey) (hs.userGlobals ▸ hget)]
        simp only [← hmutable]
        exact hs.assigned (·.setAt i { slot with value := v }) (·.map (w.assign · name v))

theorem bump_len (h : n < maxEntries) : bump n = n + 1 := by
  rw [bump, Nat.min_eq_left]
  unfold maxEntries at h
  omega

omit [DecidableEq S] in
theorem defineGlobal_agrees (site : S) (h : Coherent code vm) (hs : Same vm vm')
    (mutable : Bool) (v : w.V) (name : String) :
      Agrees code (defineGlobal vm site mutable v (.str name))
      (defineGlobal vm' site mutable v (.str name)) := by
  unfold defineGlobal
  dsimp only
  rw [← hs.userGlobals]
  by_cases hk : vm.userGlobals.containsKey name = true
  · rw [if_pos hk, if_pos hk]
    exact ⟨rfl, hs, h⟩
  rw [if_neg hk, if_neg hk]
  by_cases hfull : maxEntries ≤ vm.userGlobals.len
  · rw [if_pos hfull, if_pos hfull]
    exact ⟨rfl, hs, h⟩
  rw [if_neg hfull, if_neg hfull]
  have hnew : name ∉ vm.userGlobals.keys := fun hmem =>
    hk ((vm.userGlobals.containsKey_iff _).mpr hmem)
  have hkeys : (vm.userGlobals.insert name ⟨v, mutable⟩).keys = vm.userGlobals.keys ++ [name] := by
    rw [IndexMap.keys_insert, if_neg hnew]
  have hlen : (vm.userGlobals.insert name ⟨v, mutable⟩).len = vm.userGlobals.len + 1 := by
    rw [← IndexMap.length_keys, hkeys, List.length_append, IndexMap.length_keys]
    rfl
  refine ⟨rfl, ⟨?_, ?_, congrArg bump hs.version, congrArg bump hs.structGen⟩, ?_, ?_, ?_,
    fun s => ?_⟩
  · exact congrArg (·.insert name ⟨v, mutable⟩) hs.userGlobals
  · exact congrArg (Option.map _) hs.classEnv
  · change bump vm.globalVersion = _
    rw [h.version, bump_len (by omega)]
    exact hlen.symm
  · change bump vm.structGen = _
    rw [h.structGen, bump_len (by omega)]
    exact hlen.symm
  · change (vm.userGlobals.insert name ⟨v, mutable⟩).len ≤ _
    omega
  · have hsound := h.caches s
    change Sound _ _ (vm.caches s)
    cases hc : vm.caches s with
    | cold => trivial
    | indexBound idx gen =>
      rw [hc] at hsound
      obtain ⟨n, hn, hkey⟩ := hsound
      refine ⟨n, hn, ?_⟩
      change (vm.userGlobals.insert name ⟨v, mutable⟩).keys[idx]? = _
      have hlt := (List.getElem?_eq_some_iff.mp hkey).1
      rw [hkeys, List.getElem?_append_left hlt, hkey]
    | cached v' version =>
      rw [hc] at hsound
      obtain ⟨n, hn, hb, hv, hle, -⟩ := hsound
      have hlt : version < bump vm.globalVersion := by
        rw [h.version, bump_len (by omega)]
        rw [h.version] at hle
        omega
      exact ⟨n, hn, hb, hv, Nat.le_of_lt hlt, fun heq => absurd heq (Nat.ne_of_lt hlt)⟩

theorem globalOp_agrees (h : Coherent code vm) (hs : Same vm vm') (hop : code site = some op)
    (v : w.V) : Agrees code (globalOp true vm site op v) (globalOp false vm' site op v) := by
  have hname : siteName code site = op.name := by rw [siteName, hop]; rfl
  cases op with
  | getGlobal operand =>
    cases operand with
    | str name => exact getGlobal_agrees h hs hname
    | other shown => exact ⟨rfl, hs, h⟩
  | defineGlobal operand mutable =>
    cases operand with
    | str name => exact defineGlobal_agrees site h hs mutable v name
    | other shown => exact ⟨rfl, hs, h⟩
  | setGlobal operand =>
    cases operand with
    | str name => exact setGlobal_agrees h hs hname v
    | other shown => exact ⟨rfl, hs, h⟩

def Unshadowed (code : S → Option Op) (vm : Vm w S) (profile : List S) : Prop :=
  ∀ site ∈ profile, ∀ name, code site = some (.getGlobal (.str name)) → name ∈ builtinNames →
    name ∉ vm.userGlobals.keys

theorem seedChunk_agrees {profile : List S} (h : Coherent code vm) (hs : Same vm vm')
    (hfree : Unshadowed code vm profile) :
    Same (seedChunk code vm profile) vm' ∧ Coherent code (seedChunk code vm profile) := by
  induction profile generalizing vm with
  | nil => exact ⟨hs, h⟩
  | cons site profile ih =>
    rw [seedChunk, List.foldl_cons]
    have htail : ∀ {vm₁ : Vm w S}, vm₁.userGlobals = vm.userGlobals →
        Unshadowed code vm₁ profile := fun hu site hsite name hop hb => by
      rw [hu]
      exact hfree site (List.mem_cons_of_mem _ hsite) name hop hb
    split
    · next name hop =>
      split
      · next hb =>
        refine ih (h.setCache ⟨name, ?_, hb, rfl, Nat.le_refl _, fun _ => ?_⟩) (hs.setCache _)
          (htail rfl)
        · rw [siteName, hop]
          rfl
        · exact hfree site List.mem_cons_self name hop hb
      · exact ih h hs (htail rfl)
    · exact ih h hs (htail rfl)

/-- Every seed of the run comes while its names are free. -/
def SeedsUnshadowed (code : S → Option Op) : Vm w S → List (Event w.V S) → Prop
  | _, [] => True
  | vm, e :: es =>
    (match e with
      | .seed profile => Unshadowed code vm profile
      | .exec _ _ _ => True) ∧
    SeedsUnshadowed code (step code false vm e).2 es

theorem step_agrees {e : Event w.V S} (h : Coherent code vm) (hs : Same vm vm')
    (he : ∀ profile, e = .seed profile → Unshadowed code vm' profile) :
    Agrees code (step code true vm e) (step code false vm' e) := by
  cases e with
  | seed profile =>
    have hfree : Unshadowed code vm profile := fun site hsite name hop hb => by
      rw [hs.userGlobals]
      exact he profile rfl site hsite name hop hb
    obtain ⟨hsame, hcoh⟩ := seedChunk_agrees h hs hfree
    exact ⟨rfl, hsame, hcoh⟩
  | exec lane site v =>
    unfold step
    dsimp only
    cases hop : code site with
    | none => exact ⟨rfl, hs, h⟩
    | some op =>
      cases lane with
      | burst => exact globalOp_agrees h hs hop v
      | loop => exact globalOp_agrees h hs hop v

theorem run_agrees {es : List (Event w.V S)} (h : Coherent code vm) (hs : Same vm vm')
    (he : SeedsUnshadowed code vm' es) : (run code true vm es).1 = (run code false vm' es).1 ∧
      Same (run code true vm es).2 (run code false vm' es).2 ∧
        Coherent code (run code true vm es).2 := by
  induction es generalizing vm vm' with
  | nil => exact ⟨rfl, hs, h⟩
  | cons e es ih =>
    have hstep := step_agrees (e := e) h hs fun profile hp => by
      subst hp
      exact he.1
    obtain ⟨hout, hsame, hcoh⟩ := ih hstep.coherent hstep.same he.2
    exact ⟨congrArg₂ List.cons hstep.outcome hout, hsame, hcoh⟩

theorem SeedsUnshadowed.of_prefix {pre es : List (Event w.V S)} (hp : pre <+: es)
    (h : SeedsUnshadowed code vm es) : SeedsUnshadowed code vm pre := by
  induction pre generalizing vm es with
  | nil => trivial
  | cons e pre ih =>
    obtain ⟨es, rfl⟩ := hp
    exact ⟨h.1, ih (List.prefix_append pre es) h.2⟩

/-- With the seeds in time, specialization cannot be observed: after any part of the run an index
that is used is that of the site's name, and a builtin that is used is not shadowed. -/
theorem caches_transparent (code : S → Option Op) (env : Option w.E) (es : List (Event w.V S))
    (h : SeedsUnshadowed code (Vm.fresh env : Vm w S) es) :
    (run code true (Vm.fresh env) es).1 = (run code false (Vm.fresh env) es).1 ∧
      ∀ pre, pre <+: es → let vm : Vm w S := (run code true (Vm.fresh env) pre).2
        (∀ site idx, (vm.caches site).getIndex vm.structGen = some idx → ∃ name,
          siteName code site = some name ∧
            (vm.userGlobals.getIndex idx).map Prod.fst = some name) ∧
        ∀ site v, (vm.caches site).get vm.globalVersion = some v → ∃ name,
          siteName code site = some name ∧ v = w.builtin name ∧
            name ∉ vm.userGlobals.keys := by
  refine ⟨(run_agrees (Coherent.fresh code env) (Same.refl _) h).1, fun pre hp => ?_⟩
  have hcoh := (run_agrees (Coherent.fresh code env) (Same.refl _) (h.of_prefix hp)).2.2
  exact ⟨fun site idx hc => hcoh.index_named hc, fun site v hc => hcoh.builtin_free hc⟩

end

/-- Builtins are zero. -/
def zeros : World where
  V := Nat
  builtin _ := 0
  E := Unit
  define _ _ _ := none
  assign _ _ _ := ()

/-- Site 0 defines `print`, site 1 reads it. -/
def shadowing : Nat → Option Op
  | 0 => some (.defineGlobal (.str "print") false)
  | 1 => some (.getGlobal (.str "print"))
  | _ => none

def exec (site v : Nat) : Event zeros.V Nat := .exec .loop site v

def seeded : List (Event zeros.V Nat) := [.seed [1], exec 1 0, exec 0 5, exec 1 0]

theorem caches_transparent_seeded : (run shadowing true (Vm.fresh none) seeded).1 =
    (run shadowing false (Vm.fresh none) seeded).1 := by
  have hfree : Unshadowed shadowing (Vm.fresh none : Vm zeros Nat) [1] := fun _ _ _ _ _ =>
    List.not_mem_nil
  exact (caches_transparent shadowing none seeded ⟨hfree, trivial, trivial, trivial, trivial⟩).1

/-- A seed that comes after a user global has taken the name: the read returns the builtin. The
loader seeds before anything runs. -/
theorem late_seed_shadows :
    (run shadowing true (Vm.fresh none : Vm zeros Nat) [exec 0 5, .seed [1], exec 1 0]).1 =
        [.done, .done, .pushed (0 : Nat)] ∧
      (run shadowing false (Vm.fresh none : Vm zeros Nat) [exec 0 5, .seed [1], exec 1 0]).1 =
        [.done, .done, .pushed (5 : Nat)] := ⟨rfl, rfl⟩

end AScript.Bytecode.Globals
