import AScript.Check.Normalize

/-! The join of two types and its laws (`check/infer/ty.rs`, `table.rs`). -/

namespace AScript.Check

namespace Table

variable (tbl : Table)

/-- `nearest_common_ancestor`. -/
def nearestCommonAncestor (a b : Nat) : Option Nat :=
  (tbl.ancestry a).find? (tbl.ancestry b).contains

/-- No two classes extend each other. -/
def Acyclic : Prop := ∀ x y, x ∈ tbl.ancestry y → y ∈ tbl.ancestry x → x = y

variable {tbl}

theorem ancestryFrom_mono (hf : fuel ≤ fuel') (hc : chain' ⊆ chain)
    (h : x ∈ tbl.ancestryFrom fuel chain c) : x ∈ tbl.ancestryFrom fuel' chain' c := by
  induction fuel generalizing fuel' chain chain' c with
  | zero => cases h
  | succ fuel ih =>
    obtain ⟨fuel', rfl⟩ : ∃ k, fuel' = k + 1 := ⟨fuel' - 1, by omega⟩
    rw [ancestryFrom] at h ⊢
    split at h
    · cases h
    · next hnew =>
      rw [if_neg fun hmem => hnew (hc hmem)]
      rcases List.mem_cons.mp h with rfl | h
      · exact List.mem_cons_self
      · refine List.mem_cons_of_mem _ ?_
        cases hp : tbl.parent c with
        | none => simp [hp] at h
        | some p =>
          rw [hp] at h
          exact ih (Nat.le_of_succ_le_succ hf) (List.cons_subset_cons c hc) h

theorem ancestryFrom_suffix (hf : fuel ≤ tbl.classFuel + 1)
    (h : tbl.ancestryFrom fuel chain c = l ++ x :: r) : ∀ y ∈ x :: r, y ∈ tbl.ancestry x := by
  induction fuel generalizing chain c l with
  | zero => simp [ancestryFrom] at h
  | succ fuel ih =>
    cases l with
    | nil =>
      intro y hy
      have hx : c = x := by
        rw [ancestryFrom] at h
        split at h
        · cases h
        · exact (List.cons.inj h).1
      subst hx
      rw [List.nil_append] at h
      exact ancestryFrom_mono hf (List.nil_subset _) (h ▸ hy)
    | cons a l =>
      rw [ancestryFrom] at h
      split at h
      · cases h
      · have h := (List.cons.inj h).2
        cases hp : tbl.parent c with
        | none => simp [hp] at h
        | some p =>
          rw [hp] at h
          exact ih (Nat.le_of_succ_le hf) h

theorem nearestCommonAncestor_some (h : tbl.nearestCommonAncestor a b = some x) :
    x ∈ tbl.ancestry a ∧ x ∈ tbl.ancestry b ∧
      ∀ y ∈ tbl.ancestry a, y ∈ tbl.ancestry b → y ∈ tbl.ancestry x := by
  obtain ⟨hb, l, r, hl, hfirst⟩ := List.find?_eq_some_iff_append.mp h
  have hb : x ∈ tbl.ancestry b := by simpa using hb
  refine ⟨by rw [hl]; simp, hb, fun y hya hyb => ?_⟩
  rw [hl] at hya
  rcases List.mem_append.mp hya with hy | hy
  · exact absurd hyb (by simpa using hfirst y hy)
  · exact ancestryFrom_suffix (Nat.le_refl _) hl y hy

theorem nearestCommonAncestor_none :
    tbl.nearestCommonAncestor a b = none ↔ ∀ x ∈ tbl.ancestry a, x ∉ tbl.ancestry b := by
  simp [nearestCommonAncestor]

theorem Acyclic.nearestCommonAncestor_comm (h : tbl.Acyclic) (a b : Nat) :
    tbl.nearestCommonAncestor a b = tbl.nearestCommonAncestor b a := by
  cases hab : tbl.nearestCommonAncestor a b with
  | none =>
    rw [nearestCommonAncestor_none] at hab
    exact (nearestCommonAncestor_none.mpr fun x hx hxa => hab x hxa hx).symm
  | some x =>
    obtain ⟨hxa, hxb, hx⟩ := nearestCommonAncestor_some hab
    cases hba : tbl.nearestCommonAncestor b a with
    | none => exact absurd hxa (nearestCommonAncestor_none.mp hba x hxb)
    | some y =>
      obtain ⟨hyb, hya, hy⟩ := nearestCommonAncestor_some hba
      exact congrArg some (h x y (hy x hxb hxa) (hx y hya hyb))

end Table

namespace CheckTy

def isLiteral : CheckTy → Bool
  | .literal _ => true
  | _ => false

def isEnumVariant : CheckTy → Bool
  | .enumVariant _ _ => true
  | _ => false

theorem isEnumVariant_widen (t : CheckTy) : t.widen.isEnumVariant = false := by
  cases t with
  | literal l => cases l <;> rfl
  | _ => rfl

def joinMembers (tbl : Table) : CheckTy → CheckTy → CheckTy
  | .class a, .class b =>
    match tbl.nearestCommonAncestor a b with
    | some anc => .class anc
    | none => .prim .object
  | s, t => normalize (.union [s, t])

/-- `join`. A variant is widened once, to its enum. -/
def join (tbl : Table) (s t : CheckTy) : CheckTy :=
  if s = .any ∨ t = .any then .any
  else if s = .never then t.widen
  else if t = .never then s.widen
  else if s = t then s.widen
  else if s.isLiteral || t.isLiteral then
    if s.widen = t.widen then s.widen else normalize (.union [s.widen, t.widen])
  else if _h : s.isEnumVariant || t.isEnumVariant then join tbl s.widen t.widen
  else joinMembers tbl s t
termination_by s.isEnumVariant.toNat + t.isEnumVariant.toNat
decreasing_by
  rw [isEnumVariant_widen, isEnumVariant_widen]
  cases hs : s.isEnumVariant <;> cases ht : t.isEnumVariant <;> simp_all

/-- What a checker's type is after narrowing. -/
def isArtifact : CheckTy → Bool
  | .never | .literal _ | .enumVariant _ _ => true
  | _ => false

def isVar : CheckTy → Bool
  | .var _ _ => true
  | _ => false

theorem widen_plain {t : CheckTy} (h : t.isArtifact = false) (h' : t.isVar = false) :
    t.widen = t := by
  cases t <;> first | rfl | (cases h; done) | cases h'

theorem not_literal {t : CheckTy} (h : t.isArtifact = false) :
    t.isLiteral = false ∧ t.isEnumVariant = false := by
  cases t <;> first | exact ⟨rfl, rfl⟩ | cases h

theorem join_plain {tbl : Table} {s t : CheckTy} (hs : s.isArtifact = false)
    (ht : t.isArtifact = false) (hs' : s.isVar = false) (ht' : t.isVar = false) :
    join tbl s t =
      if s = .any ∨ t = .any then .any else if s = t then s else joinMembers tbl s t := by
  have hnever : s ≠ .never ∧ t ≠ .never := by
    refine ⟨?_, ?_⟩
    · rintro rfl
      cases hs
    · rintro rfl
      cases ht
  rw [join, if_neg hnever.1, if_neg hnever.2, (not_literal hs).1, (not_literal ht).1,
    widen_plain hs hs']
  simp [(not_literal hs).2, (not_literal ht).2]

theorem join_self {tbl : Table} {t : CheckTy} (ht : t.isArtifact = false) :
    join tbl t t = t ↔ t.isVar = false := by
  cases hv : t.isVar with
  | false =>
    rw [join_plain ht ht hv hv]
    simp only [or_self, if_true, iff_true]
    split
    · next h => exact h.symm
    · rfl
  | true =>
    cases t with
    | var i b => simp [join, widen]
    | _ => cases hv

def Normalized (t : CheckTy) : Prop := ∃ u, normalize u = t

theorem two_members (h : normalize (.union ms) = .union us) : ∃ x ∈ us, ∃ y ∈ us, x ≠ y := by
  obtain ⟨rfl, -, hlen, -⟩ := normalize_eq_union h
  by_contra hno
  push Not at hno
  have hn : (canon ms).Nodup := canon_nodup fun x hx y hy _ =>
    hno x (mem_canon.mpr hx) y (mem_canon.mpr hy)
  match hc : canon ms with
  | [] => simp [hc] at hlen
  | [x] => simp [hc] at hlen
  | x :: y :: _ =>
    rw [hc] at hn hno
    exact (List.nodup_cons.mp hn).1 (hno x (by simp) y (by simp) ▸ List.mem_cons_self)

theorem Normalized.union (h : Normalized (.union us)) :
    ∃ ms, normalize (.union ms) = .union us := by
  obtain ⟨u, hu⟩ := h
  cases u with
  | union ms => exact ⟨ms, hu⟩
  | _ => cases hu

theorem exists_union {t : CheckTy} (h : t.isUnion = true) : ∃ us, t = .union us := by
  cases t with
  | union us => exact ⟨us, rfl⟩
  | _ => cases h

theorem flatten_plain {t : CheckTy} (h : t.isArtifact = false) (hu : t.isUnion = false) :
    flatten t = [t] := by
  cases t <;> first | rfl | (cases h; done) | cases hu

theorem mem_flatten_union (h : Normalized (.union us)) : m ∈ flatten (.union us) ↔ m ∈ us := by
  obtain ⟨ms, hms⟩ := h.union
  have hmem := members_canon (normalize_eq_union hms).2.1
  rw [← (normalize_eq_union hms).1] at hmem
  rw [flatten, flattenAll_members hmem, List.mem_reverse]

theorem mem_pair {s t : CheckTy} : m ∈ flattenAll [s, t] ↔ m ∈ flatten t ∨ m ∈ flatten s := by
  simp [flattenAll]

theorem two_members_pair (hs : s.isArtifact = false) (ht : t.isArtifact = false)
    (hns : Normalized s) (hnt : Normalized t) (hne : s ≠ t) :
    ∃ x ∈ flattenAll [s, t], ∃ y ∈ flattenAll [s, t], x ≠ y := by
  have hunion : ∀ us, Normalized (.union us) →
      ∃ x ∈ flatten (.union us), ∃ y ∈ flatten (.union us), x ≠ y := by
    intro us h
    obtain ⟨ms, hms⟩ := h.union
    obtain ⟨x, hx, y, hy, hxy⟩ := two_members hms
    exact ⟨x, (mem_flatten_union h).mpr hx, y, (mem_flatten_union h).mpr hy, hxy⟩
  cases hus : s.isUnion with
  | true =>
    obtain ⟨us, rfl⟩ := exists_union hus
    obtain ⟨x, hx, y, hy, hxy⟩ := hunion us hns
    exact ⟨x, mem_pair.mpr (.inr hx), y, mem_pair.mpr (.inr hy), hxy⟩
  | false =>
    cases hut : t.isUnion with
    | true =>
      obtain ⟨us, rfl⟩ := exists_union hut
      obtain ⟨x, hx, y, hy, hxy⟩ := hunion us hnt
      exact ⟨x, mem_pair.mpr (.inl hx), y, mem_pair.mpr (.inl hy), hxy⟩
    | false =>
      refine ⟨s, mem_pair.mpr (.inr ?_), t, mem_pair.mpr (.inl ?_), hne⟩
      · rw [flatten_plain hs hus]
        exact List.mem_cons_self
      · rw [flatten_plain ht hut]
        exact List.mem_cons_self

section

variable {tbl : Table} {n : Nat} {conf : CheckTy → Nat → Compat3} {left : Nat}

theorem assignable_any (s : CheckTy) : assignable tbl n s .any = .yes := by
  cases s <;> rfl

theorem toUnion_no_iff {vs : List Compat3} :
    Compat3.toUnion vs = .no ↔ vs ≠ [] ∧ ∀ v ∈ vs, v = .no := by
  refine ⟨fun h => ⟨?_, toUnion_no h⟩, fun ⟨hne, h⟩ => ?_⟩
  · rintro rfl
    cases h
  · have hyes : Compat3.yes ∉ vs := fun hv => nomatch h _ hv
    have hunknown : Compat3.unknown ∉ vs := fun hv => nomatch h _ hv
    rw [Compat3.toUnion, if_neg hyes, if_pos ⟨hunknown, hne⟩]

theorem assignable_union {s : CheckTy} {us : List CheckTy} (hs : s.isArtifact = false)
    (hg : s.isGradual = false) (hmem : s = .nil → .nil ∈ us) (hne : us ≠ []) :
    assignableDepth tbl conf (left + 1) s (.union us) ≠ .no ↔
      ∃ m ∈ us, assignableDepth tbl conf left s m ≠ .no := by
  by_cases hnil : s = .nil
  · subst hnil
    have hany : us.any isNilTy = true := List.any_eq_true.mpr ⟨.nil, hmem rfl, rfl⟩
    have hyes : assignableDepth tbl conf (left + 1) .nil (.union us) = .yes := by
      change nilRule (.union us) = .yes
      rw [nilRule, if_pos hany]
    rw [hyes]
    refine iff_of_true (fun h => by cases h) ⟨.nil, hmem rfl, ?_⟩
    cases left <;> exact fun h => by cases h
  · have hrules : assignableDepth tbl conf (left + 1) s (.union us) =
        .toUnion (us.map (assignableDepth tbl conf left s)) := by
      cases s <;> first | rfl | exact absurd rfl hnil | (cases hs; done) | cases hg
    rw [hrules, Ne, toUnion_no_iff]
    simp [hne]

def unionsNilable : Nat → CheckTy → Bool
  | 0, _ => true
  | k + 1, .array t | k + 1, .result t | k + 1, .future t => unionsNilable k t
  | k + 1, .map key val => unionsNilable k key && unionsNilable k val
  | _ + 1, .union ms => ms.any isNilTy
  | k + 1, .tuple ts | k + 1, .classApp _ ts | k + 1, .enumApp _ ts => ts.all (unionsNilable k)
  | k + 1, .fnSig ps r => ps.all (unionsNilable k) && unionsNilable k r
  | _ + 1, _ => true

theorem mem_any_nil {ms : List CheckTy} (h : ms.any isNilTy = true) : .nil ∈ ms := by
  obtain ⟨m, hm, hnil⟩ := List.any_eq_true.mp h
  cases m with
  | nil => exact hm
  | _ => cases hnil

theorem assignable_nil (s : CheckTy) : assignableDepth tbl conf left s .nil ≠ .no := by
  induction left generalizing s with
  | zero => exact nofun
  | succ left ih =>
    cases s with
    | union ms =>
      change Compat3.ofUnion (ms.map fun m => assignableDepth tbl conf left m .nil) ≠ .no
      intro h
      obtain ⟨m, -, hm⟩ := List.mem_map.mp (ofUnion_no h)
      exact ih m hm
    | literal l => cases l <;> exact nofun
    | prim p => cases p <;> exact nofun
    | _ => exact nofun

theorem conformsWithin_plain {t : CheckTy} (h : ∀ c, t.widen ≠ .class c)
    (happ : ∀ c ts, t.widen ≠ .classApp c ts) : conformsWithin tbl n t i ≠ .no := by
  cases n with
  | zero => exact nofun
  | succ n =>
    rw [conformsWithin, conforms]
    split
    · next hc => exact absurd hc (h _)
    · next hc => exact absurd hc (happ _ _)
    · exact nofun

theorem zip_self_mem {l : List α} (h : p ∈ l.zip l) : p.1 ∈ l ∧ p.2 = p.1 := by
  induction l with
  | nil => cases h
  | cons a l ih =>
    rcases List.mem_cons.mp h with rfl | h
    · exact ⟨List.mem_cons_self, rfl⟩
    · exact ⟨List.mem_cons_of_mem a (ih h).1, (ih h).2⟩

theorem meet_self {ts : List CheckTy} {f : CheckTy × CheckTy → Compat3}
    (h : ∀ t ∈ ts, f (t, t) ≠ .no) : ((ts.zip ts).map f).foldl Compat3.meet .yes ≠ .no := by
  intro hno
  rcases foldl_meet_no hno with hno | hno
  · cases hno
  · obtain ⟨⟨a, b⟩, hp, hno⟩ := List.mem_map.mp hno
    obtain ⟨ha, rfl⟩ : a ∈ ts ∧ b = a := zip_self_mem hp
    exact h b ha hno

theorem unionsNilable_self {t : CheckTy} (h : unionsNilable left t = true) :
    assignableDepth tbl (conformsWithin tbl n) left t t ≠ .no := by
  induction left generalizing t with
  | zero => rintro ⟨⟩
  | succ left ih =>
    have hargs : ∀ ts, ts.all (unionsNilable left) = true →
        invariantArgs (assignableDepth tbl (conformsWithin tbl n) left) ts ts ≠ .no := by
      intro ts hts
      refine meet_self fun t ht => ?_
      have hself := ih (List.all_eq_true.mp hts t ht)
      rw [invariantPair]
      split
      · rintro ⟨⟩
      · split
        · next hno _ => exact absurd hno hself
        · rintro ⟨⟩
        · rintro ⟨⟩
    cases t with
    | any | never | nil => rintro ⟨⟩
    | prim p => cases p <;> rintro ⟨⟩
    | literal l => cases l <;> rintro ⟨⟩
    | array t | result t | future t => exact ih (t := t) h
    | map k v =>
      rw [unionsNilable, Bool.and_eq_true] at h
      change Compat3.meet _ _ ≠ .no
      exact fun hno => (meet_no hno).elim (ih h.1) (ih h.2)
    | tuple ts =>
      change (if ts.length ≠ ts.length then Compat3.no else _) ≠ .no
      rw [if_neg (not_not.mpr rfl)]
      exact meet_self fun t ht => ih (List.all_eq_true.mp h t ht)
    | union us =>
      have hmem := mem_any_nil h
      rw [assignable_union rfl rfl (fun _ => hmem) (List.ne_nil_of_mem hmem)]
      exact ⟨.nil, hmem, assignable_nil _⟩
    | «class» c =>
      change (if tbl.isSubclass c c then Compat3.yes else .no) ≠ .no
      rw [Table.isSubclass, Table.isSubclassFrom, if_pos rfl, if_pos rfl]
      rintro ⟨⟩
    | enum e =>
      change (if e = e then Compat3.yes else .no) ≠ .no
      rw [if_pos rfl]
      rintro ⟨⟩
    | enumVariant e v =>
      change (if e = e ∧ v = v then Compat3.yes else .no) ≠ .no
      rw [if_pos ⟨rfl, rfl⟩]
      rintro ⟨⟩
    | var i bound =>
      cases bound with
      | none => rintro ⟨⟩
      | some b =>
        cases b with
        | interface j => exact conformsWithin_plain (by rintro _ ⟨⟩) (by rintro _ _ ⟨⟩)
        | _ => rintro ⟨⟩
    | fnSig ps r =>
      rw [unionsNilable, Bool.and_eq_true] at h
      change (if ps.length ≠ ps.length then Compat3.no else fnSigArgs _ ps ps r r) ≠ .no
      rw [if_neg (not_not.mpr rfl), fnSigArgs]
      refine fun hno => (meet_no hno).elim ?_ (ih h.2)
      exact meet_self fun t ht => ih (List.all_eq_true.mp h.1 t ht)
    | classApp c ts | enumApp c ts =>
      change (if c ≠ c ∨ ts.length ≠ ts.length then Compat3.no else invariantArgs _ ts ts) ≠ .no
      rw [if_neg (by simp)]
      exact hargs ts h
    | interface j => exact conformsWithin_plain (by rintro _ ⟨⟩) (by rintro _ _ ⟨⟩)

def joinDepth (s t : CheckTy) : Nat := if s = t then typeDepthCap + 1 else typeDepthCap

def Seated (s t : CheckTy) : Prop :=
  (s ≠ t ∧ ((flattenAll [s, t]).any isGradual = true ∨
      unionWidthCap < (flattenAll [s, t]).dedup.length)) ∨
    (∃ c e, s = .class c ∧ t = .class e) ∨ .nil ∈ flattenAll [s, t] ∨
      unionsNilable (joinDepth s t) s = true

theorem joinMembers_class (c e : Nat) :
    assignable tbl n (.class c) (joinMembers tbl (.class c) (.class e)) ≠ .no := by
  rw [joinMembers]
  split
  · next anc h =>
    have hanc := (Table.nearestCommonAncestor_some h).1
    change (if tbl.isSubclass c anc then Compat3.yes else .no) ≠ .no
    rw [if_pos (Table.isSubclass_iff.mpr hanc)]
    exact nofun
  · exact nofun

theorem joinMembers_union {s t : CheckTy} (h : ¬ ∃ c e, s = .class c ∧ t = .class e) :
    joinMembers tbl s t = normalize (.union [s, t]) := by
  unfold joinMembers
  split
  · exact absurd ⟨_, _, rfl, rfl⟩ h
  · rfl

theorem isGradual_plain {t : CheckTy} (hv : t.isVar = false) (h : t ≠ .any) :
    t.isGradual = false := by
  cases t <;> first | rfl | exact absurd rfl h | cases hv

theorem two_canon (hs : s.isArtifact = false) (ht : t.isArtifact = false)
    (hns : Normalized s) (hnt : Normalized t) (hne : s ≠ t) : 2 ≤ (canon [s, t]).length := by
  obtain ⟨x, hx, y, hy, hxy⟩ := two_members_pair hs ht hns hnt hne
  have hsub : [x, y].Subperm (canon [s, t]) :=
    List.subperm_of_subset (by simpa using hxy) (by simp [mem_canon, hx, hy])
  exact hsub.length_le

theorem Seated.accepts (h : Seated s t) (hs : s.isArtifact = false) (ht : t.isArtifact = false)
    (hs' : s.isVar = false) (ht' : t.isVar = false) (hns : Normalized s) (hnt : Normalized t) :
    assignable tbl n s (join tbl s t) ≠ .no := by
  rw [join_plain hs ht hs' ht']
  split
  · rw [assignable_any]
    exact nofun
  next hany =>
  have hgs := isGradual_plain hs' (not_or.mp hany).1
  split
  · next hst =>
    subst hst
    rcases h with h | ⟨c, e, rfl, -⟩ | hnil | hself
    · exact absurd rfl h.1
    · exact unionsNilable_self rfl
    · refine unionsNilable_self ?_
      cases s with
      | union us =>
        have hmem : .nil ∈ us := (mem_flatten_union hns).mp (by simpa [flattenAll] using hnil)
        exact List.any_eq_true.mpr ⟨.nil, hmem, rfl⟩
      | nil => rfl
      | never | literal | enumVariant => cases hs
      | _ => simp [flattenAll, flatten] at hnil
    · rw [joinDepth, if_pos rfl] at hself
      exact unionsNilable_self hself
  next hst =>
  by_cases hclass : ∃ c e, s = .class c ∧ t = .class e
  · obtain ⟨c, e, rfl, rfl⟩ := hclass
    exact joinMembers_class c e
  rw [joinMembers_union hclass]
  cases hg : (flattenAll [s, t]).any isGradual with
  | true =>
    rw [normalize_gradual hg, assignable_any]
    exact nofun
  | false =>
  by_cases hwide : unionWidthCap < (canon [s, t]).length
  · rw [normalize_wide hwide, assignable_any]
    exact nofun
  have htwo := two_canon hs ht hns hnt hst
  rw [normalize_members hg htwo (Nat.not_lt.mp hwide), assignable, assignable_union hs hgs ?_
    (List.ne_nil_of_length_pos (by omega))]
  · rcases h with h | h | hnil | hself
    · rcases h.2 with hg' | hwide'
      · rw [hg] at hg'
        cases hg'
      · exact absurd (hwide'.trans_le (distinct_le _)) hwide
    · exact absurd h hclass
    · exact ⟨.nil, mem_canon.mpr hnil, assignable_nil s⟩
    · rw [joinDepth, if_neg hst] at hself
      cases hu : s.isUnion with
      | false =>
        refine ⟨s, mem_canon.mpr (mem_pair.mpr (.inr ?_)), unionsNilable_self hself⟩
        rw [flatten_plain hs hu]
        exact List.mem_cons_self
      | true =>
        obtain ⟨us, rfl⟩ := exists_union hu
        have hnil := (mem_flatten_union hns).mpr (mem_any_nil hself)
        exact ⟨.nil, mem_canon.mpr (mem_pair.mpr (.inr hnil)), assignable_nil _⟩
  · rintro rfl
    exact mem_canon.mpr (mem_pair.mpr (.inr List.mem_cons_self))

structure JoinLaws (tbl : Table) (n : Nat) (s t : CheckTy) : Prop where
  comm : join tbl s t = join tbl t s
  idem : join tbl s s = s ∧ join tbl t t = t
  left : assignable tbl n s (join tbl s t) ≠ .no
  right : assignable tbl n t (join tbl s t) ≠ .no

theorem sameMembers_swap (s t : CheckTy) : SameMembers [t, s] [s, t] := fun m => by
  rw [mem_pair, mem_pair, or_comm]

theorem join_comm (hp : tbl.Acyclic) (hs : s.isArtifact = false) (ht : t.isArtifact = false)
    (hs' : s.isVar = false) (ht' : t.isVar = false) (hc : Canonical [s, t]) :
    join tbl s t = join tbl t s := by
  rw [join_plain hs ht hs' ht', join_plain ht hs ht' hs']
  by_cases hany : s = .any ∨ t = .any
  · rw [if_pos hany, if_pos hany.symm]
  rw [if_neg hany, if_neg (mt Or.symm hany)]
  by_cases hst : s = t
  · rw [if_pos hst, if_pos hst.symm, hst]
  rw [if_neg hst, if_neg (Ne.symm hst)]
  by_cases hclass : ∃ c e, s = .class c ∧ t = .class e
  · obtain ⟨c, e, rfl, rfl⟩ := hclass
    rw [joinMembers, joinMembers, hp.nearestCommonAncestor_comm]
  · have hclass' : ¬ ∃ c e, t = .class c ∧ s = .class e := fun ⟨c, e, hc, he⟩ =>
      hclass ⟨e, c, he, hc⟩
    rw [joinMembers_union hclass, joinMembers_union hclass']
    exact (hc.congr (sameMembers_swap s t)).symm

/-- When two types have a join. -/
structure Joinable (s t : CheckTy) : Prop where
  plain : s.isVar = false ∧ t.isVar = false
  canonical : s = t ∨ Canonical [s, t]
  left : Seated s t
  right : Seated t s

theorem Joinable.laws (h : Joinable s t) (hp : tbl.Acyclic) (hs : s.isArtifact = false)
    (ht : t.isArtifact = false) (hns : Normalized s) (hnt : Normalized t) :
    JoinLaws tbl n s t := by
  obtain ⟨hs', ht'⟩ := h.plain
  have hcomm : join tbl s t = join tbl t s := by
    rcases h.canonical with rfl | hc
    · rfl
    · exact join_comm hp hs ht hs' ht' hc
  refine ⟨hcomm, ⟨(join_self hs).mpr hs', (join_self ht).mpr ht'⟩, ?_, ?_⟩
  · exact h.left.accepts hs ht hs' ht' hns hnt
  · rw [hcomm]
    exact h.right.accepts ht hs ht' hs' hnt hns

theorem flattenAll_single (s : CheckTy) : flattenAll [s] = flatten s := by
  simp [flattenAll]

theorem flattenAll_pair (s t : CheckTy) : flattenAll [s, t] = flatten t ++ flatten s := by
  simp [flattenAll]

theorem Normalized.flatten_nodup (hns : Normalized s) (hs : s.isArtifact = false)
    (hk : Separated (flatten s)) : (flatten s).Nodup := by
  cases hu : s.isUnion with
  | false =>
    rw [flatten_plain hs hu]
    exact List.nodup_singleton s
  | true =>
    obtain ⟨us, rfl⟩ := exists_union hu
    obtain ⟨ms, hms⟩ := hns.union
    obtain ⟨hus, hg, -⟩ := normalize_eq_union hms
    have hflat : flatten (.union us) = us.reverse :=
      flattenAll_members (hus ▸ members_canon hg)
    have hsep : Separated (flattenAll ms) := fun x hx y hy => by
      have hmem : ∀ z ∈ flattenAll ms, z ∈ flatten (.union us) := fun z hz => by
        rw [hflat, List.mem_reverse, hus]
        exact mem_canon.mpr hz
      exact hk x (hmem x hx) y (hmem y hy)
    rw [hflat, List.nodup_reverse, hus]
    exact canon_nodup hsep

theorem Normalized.separated (hns : Normalized s) (hg : (flatten s).any isGradual = false)
    (hs : s.isArtifact = false) (hc : Canonical [s]) : Separated (flatten s) := by
  rw [Canonical, flattenAll_single] at hc
  rcases hc with hc | hc | hc
  · rw [hg] at hc
    cases hc
  · cases hu : s.isUnion with
    | false =>
      rw [flatten_plain hs hu] at hc
      simp [unionWidthCap] at hc
    | true =>
      obtain ⟨us, rfl⟩ := exists_union hu
      obtain ⟨ms, hms⟩ := hns.union
      have hlen := (normalize_eq_union hms).2.2.2
      have hsub : (flatten (.union us)).dedup.Subperm us :=
        List.subperm_of_subset (List.nodup_dedup _) fun m hm =>
          (mem_flatten_union hns).mp (List.mem_dedup.mp hm)
      exact absurd (hc.trans_le hsub.length_le) (Nat.not_lt.mpr hlen)
  · exact hc

theorem canon_pair_nodup (hs : Separated (flatten s)) (ht : Separated (flatten t))
    (hs' : (flatten s).Nodup) (ht' : (flatten t).Nodup) : (canon [s, t]).Nodup := by
  refine canon_once fun x hx y hy hxy => ?_
  rw [flattenAll_pair, List.count_append] at hx
  have hxs := List.nodup_iff_count_le_one.mp hs' x
  have hxt := List.nodup_iff_count_le_one.mp ht' x
  rcases mem_pair.mp hy with hy | hy
  · exact ht y hy x (List.count_pos_iff.mp (by omega)) hxy
  · exact hs y hy x (List.count_pos_iff.mp (by omega)) hxy

theorem separated_pair (hs : Separated (flatten s)) (ht : Separated (flatten t))
    (hn : (canon [s, t]).Nodup) (heq : canon [s, t] = canon [t, s]) :
    Separated (flattenAll [s, t]) := by
  have hcross : ∀ x ∈ flatten s, ∀ y ∈ flatten t, key x = key y → x = y := by
    intro x hx y hy hxy
    by_contra hne
    have hx := List.singleton_sublist.mpr hx
    have hy := List.singleton_sublist.mpr hy
    refine not_both_orders hn (x := y) (y := x) ?_ ?_
    · exact canon_pair hxy.symm (Ne.symm hne) (flattenAll_pair s t ▸ hy.append hx)
    · rw [heq]
      exact canon_pair hxy hne (flattenAll_pair t s ▸ hx.append hy)
  intro x hx y hy hxy
  rcases mem_pair.mp hx with hx | hx <;> rcases mem_pair.mp hy with hy | hy
  · exact ht x hx y hy hxy
  · exact (hcross y hy x hx hxy.symm).symm
  · exact hcross x hx y hy hxy
  · exact hs x hx y hy hxy

theorem canon_length (hn : (canon ms).Nodup) :
    (canon ms).length = (flattenAll ms).dedup.length := by
  refine ((List.perm_ext_iff_of_nodup hn (List.nodup_dedup _)).mpr fun m => ?_).length_eq
  rw [mem_canon, List.mem_dedup]

theorem separated_classes (c e : Nat) :
    Separated (flattenAll [CheckTy.class c, CheckTy.class e]) := by
  intro x hx y hy hxy
  have hclass : ∀ z ∈ flattenAll [CheckTy.class c, CheckTy.class e], ∃ i, z = .class i := by
    simp [flattenAll, flatten]
  obtain ⟨i, rfl⟩ := hclass x hx
  obtain ⟨j, rfl⟩ := hclass y hy
  exact congrArg _ (congrArg (fun k => (ofLex k).2) hxy)

theorem canonical_of_comm (hs : s.isArtifact = false) (ht : t.isArtifact = false)
    (hns : Normalized s) (hnt : Normalized t) (hcs : Canonical [s]) (hct : Canonical [t])
    (hs' : s.isVar = false) (ht' : t.isVar = false) (h : join tbl s t = join tbl t s) :
    s = t ∨ Canonical [s, t] := by
  refine or_iff_not_imp_left.mpr fun hst => ?_
  by_contra hno
  obtain ⟨hg, hno⟩ := not_or.mp hno
  obtain ⟨hwide, hk⟩ := not_or.mp hno
  have hg := Bool.eq_false_iff.mpr hg
  have hgst := hg
  rw [flattenAll_pair, List.any_append, Bool.or_eq_false_iff] at hgst
  have hseps := hns.separated hgst.2 hs hcs
  have hsept := hnt.separated hgst.1 ht hct
  have hns' := hns.flatten_nodup hs hseps
  have hnt' := hnt.flatten_nodup ht hsept
  have hn := canon_pair_nodup hseps hsept hns' hnt'
  have hn' := canon_pair_nodup hsept hseps hnt' hns'
  have hlen : (canon [s, t]).length ≤ unionWidthCap := canon_length hn ▸ Nat.not_lt.mp hwide
  have hlen' : (canon [t, s]).length ≤ unionWidthCap := by
    rw [canon_length hn', distinct_congr (sameMembers_swap s t)]
    exact Nat.not_lt.mp hwide
  have hany : ¬ (s = .any ∨ t = .any) := by
    rintro (rfl | rfl)
    · cases hgst.2
    · cases hgst.1
  have hclass : ¬ ∃ c e, s = .class c ∧ t = .class e := by
    rintro ⟨c, e, rfl, rfl⟩
    exact hk (separated_classes c e)
  have hclass' : ¬ ∃ c e, t = .class c ∧ s = .class e := fun ⟨c, e, hc, he⟩ =>
    hclass ⟨e, c, he, hc⟩
  rw [join_plain hs ht hs' ht', join_plain ht hs ht' hs', if_neg hany, if_neg (mt Or.symm hany),
    if_neg hst, if_neg (Ne.symm hst), joinMembers_union hclass, joinMembers_union hclass',
    normalize_members hg (two_canon hs ht hns hnt hst) hlen,
    normalize_members ((sameMembers_swap s t).gradual.trans hg)
      (two_canon ht hs hnt hns (Ne.symm hst)) hlen'] at h
  exact hk (separated_pair hseps hsept hn (CheckTy.union.inj h))

end

end CheckTy

open CheckTy

/-- When unions normalize canonically, and when that gives a join. -/
theorem canonical_form (tbl : Table) (n : Nat) :
    (∀ ms, UnionLaws ms ↔ Canonical ms) ∧
      (tbl.Acyclic → ∀ s t, s.isArtifact = false → t.isArtifact = false → Normalized s →
        Normalized t → (Joinable s t → JoinLaws tbl n s t) ∧
          (JoinLaws tbl n s t → (s.isVar = false ∧ t.isVar = false) ∧
            (Canonical [s] → Canonical [t] → s = t ∨ Canonical [s, t]))) := by
  refine ⟨fun _ => unionLaws_iff, fun hp s t hs ht hns hnt => ⟨fun h => ?_, fun h => ?_⟩⟩
  · exact h.laws hp hs ht hns hnt
  · have hs' := (join_self hs).mp h.idem.1
    have ht' := (join_self ht).mp h.idem.2
    exact ⟨⟨hs', ht'⟩, fun hcs hct =>
      canonical_of_comm hs ht hns hnt hcs hct hs' ht' h.comm⟩

def emptyTable : Table := ⟨[], [], [], fun _ => none⟩

theorem emptyTable_acyclic : emptyTable.Acyclic := by
  intro x y hx _
  have hself : emptyTable.ancestry y = [y] := by
    simp [Table.ancestry, Table.ancestryFrom, Table.parent, emptyTable]
  simpa [hself] using hx

/-- An optional int and a string. -/
theorem canonical_form_optional :
    JoinLaws emptyTable 0 (CheckTy.union [.prim .int, .nil]) (.prim .string) := by
  have hsep : Separated (flattenAll [CheckTy.union [.prim .int, .nil], .prim .string]) := by
    intro x hx y hy
    simp only [flattenAll, flatten, List.nil_append, List.cons_append, List.mem_cons,
      List.not_mem_nil, or_false] at hx hy
    rcases hx with rfl | rfl | rfl <;> rcases hy with rfl | rfl | rfl <;>
      simp [key, discriminantOrder, secondaryKey]
  have hlaws := (canonical_form emptyTable 0).2 emptyTable_acyclic
    (CheckTy.union [.prim .int, .nil]) (.prim .string) rfl rfl
    ⟨CheckTy.union [.prim .int, .nil], by decide⟩ ⟨.prim .string, rfl⟩
  refine hlaws.1 ⟨⟨rfl, rfl⟩, .inr (.inr (.inr hsep)), ?_, ?_⟩
  · exact .inr (.inr (.inl (by decide)))
  · exact .inr (.inr (.inr rfl))

/-- Two arrays change places each time, one of them twice stays twice, and a union is refused at
its join with itself. -/
theorem arrays_not_canonical :
    let ints : CheckTy := .array (.prim .int)
    let strings : CheckTy := .array (.prim .string)
    let u : CheckTy := CheckTy.union [.prim .int, .prim .string]
    normalize (normalize (CheckTy.union [ints, strings])) ≠
        normalize (CheckTy.union [ints, strings]) ∧
      normalize (CheckTy.union [ints, strings, ints]) = CheckTy.union [ints, strings, ints] ∧
        join emptyTable ints strings ≠ join emptyTable strings ints ∧
          normalize u = CheckTy.union [.prim .int, .prim .string] ∧
            assignable emptyTable 0 u (join emptyTable u u) = .no := by
  refine ⟨by decide, by decide, ?_, by decide, ?_⟩
  · rw [join_plain rfl rfl rfl rfl, join_plain rfl rfl rfl rfl]
    decide
  · rw [join_plain rfl rfl rfl rfl]
    decide

end AScript.Check
