import AScript.Check.Kinds

namespace AScript.Check

open AScript.Syntax AScript.Runtime

namespace CheckTy

/-- The members of a union, or the type itself. -/
def members : CheckTy → List CheckTy
  | .union ms => ms
  | t => [t]

def isUnion : CheckTy → Bool
  | .union _ => true
  | _ => false

def isKey (t : CheckTy) : Bool :=
  (kinds t).all fun k => k ∈ [Kind.int, .float, .string, .bool, .nil]

inductive Misshapen : CheckTy → CheckTy → Prop
  | kinds : (∀ k ∈ kinds s, k ∉ kinds d) → Misshapen s d
  | tuples : ss.length ≠ ds.length → Misshapen (.tuple ss) (.tuple ds)
  | tupleResult : ss.length ≠ 2 → Misshapen (.tuple ss) (.result d)
  | resultTuple : ds.length ≠ 2 → Misshapen (.result s) (.tuple ds)

/-- Comparisons that stay with the sound rules. Left out are: unions on both sides, unless a
kind of value or all but one member decide; nil or object against error; tuples and results
against arrays and against each other at length two, or several of them in a union; results
that may hold nil; maps with keys that are no scalars. -/
inductive Clean : CheckTy → CheckTy → Prop
  | foreign : k ∈ kinds s → k ∉ kinds d → Clean s d
  | misshapen : Misshapen s d → Clean s d
  | any : Clean .any d
  | toAny : Clean s .any
  | prim : (p = .object → .prim .error ∉ members d) → Clean (.prim p) d
  | nil : .nil ∈ members d → Clean .nil d
  | class : Clean (.class c) d
  | array : (∀ t, .array t ∈ members d → Clean s t) → Clean (.array s) d
  | tuple : (∀ p ∈ ss.zip ds, Clean p.1 p.2) → Clean (.tuple ss) (.tuple ds)
  | result : .nil ∉ kinds s → Clean s d → Clean (.result s) (.result d)
  | resultForeign : k ≠ .nil → k ∈ kinds s → k ∉ kinds d → Clean (.result s) (.result d)
  | map : (k = .any ∨ k.isKey = true) → Clean k k' → Clean s d → Clean (.map k s) (.map k' d)
  | source : d.isUnion = false → (∀ m ∈ ms, Clean m d) → Clean (.union ms) d
  | one : s ≠ .nil → d ∈ ds → Clean s d → (∀ m ∈ ds, m = d ∨ Misshapen s m) → Clean s (.union ds)

variable {tbl : Table} {D : Type} {x : Tree} {s d t : CheckTy} {ss ds ms ts : List CheckTy}

theorem fits_kind (ht : t.Data tbl) (hx : Fits tbl D t x) : x.kind ∈ kinds t := by
  induction ht with
  | any => cases x.kind <;> simp [kinds, Kind.all]
  | number | int | float | string | bool | object | error =>
    exact (fits_prim (by constructor)).mp hx
  | nil => simpa [kinds] using fits_nil.mp hx
  | array ht =>
    obtain ⟨xs, rfl, -⟩ := (fits_array ht).mp hx
    exact List.mem_singleton_self _
  | map hk ht =>
    obtain rfl | ⟨key, y, rfl, -⟩ := (fits_map hk ht).mp hx <;> exact List.mem_singleton_self _
  | tuple ht =>
    obtain ⟨xs, rfl, -⟩ := (fits_tuple ht).mp hx
    exact List.mem_singleton_self _
  | result ht =>
    obtain ⟨y, z, rfl, -⟩ := (fits_result ht).mp hx
    exact List.mem_singleton_self _
  | «class» =>
    obtain ⟨cls, rfl, -⟩ := fits_class.mp hx
    exact List.mem_singleton_self _
  | union hne hms ih =>
    obtain ⟨m, hm, hx⟩ := (fits_union (.union hne hms)).mp hx
    rw [kinds, mem_kindsAll]
    exact ⟨m, hm, ih m hm hx⟩

theorem kinds_ne_nil (ht : t.Data tbl) : ∃ k, k ∈ kinds t := by
  induction ht with
  | union hne _ ih =>
    obtain ⟨m, hm⟩ := List.exists_mem_of_ne_nil _ hne
    obtain ⟨k, hk⟩ := ih m hm
    exact ⟨k, mem_kindsAll.mpr ⟨m, hm, hk⟩⟩
  | _ => exact ⟨_, List.mem_cons_self⟩

theorem forall₂_of_forall {R : α → β → Prop} {xs : List α} (h : ∀ a ∈ xs, ∃ b, R a b) :
    ∃ ys, List.Forall₂ R xs ys := by
  induction xs with
  | nil => exact ⟨[], .nil⟩
  | cons a xs ih =>
    obtain ⟨b, hb⟩ := h a List.mem_cons_self
    obtain ⟨ys, hys⟩ := ih fun a ha => h a (List.mem_cons_of_mem _ ha)
    exact ⟨b :: ys, .cons hb hys⟩

theorem exists_of_kind (ht : t.Data tbl) (hk : k ∈ kinds t) : ∃ x, Fits tbl D t x ∧ x.kind = k := by
  induction ht generalizing k with
  | any => exact ⟨.sample k, fits_any, Tree.kind_sample k⟩
  | number | int | float | string | bool | object | error =>
    refine ⟨.sample k, (fits_prim (by constructor)).mpr ?_, Tree.kind_sample k⟩
    rw [Tree.kind_sample]
    exact hk
  | nil =>
    rw [kinds, List.mem_singleton] at hk
    subst hk
    exact ⟨.leaf .nil, fits_nil.mpr rfl, rfl⟩
  | array ht =>
    rw [kinds, List.mem_singleton] at hk
    exact ⟨.array [], (fits_array ht).mpr ⟨[], rfl, by simp⟩, hk.symm⟩
  | map hk' ht =>
    rw [kinds, List.mem_singleton] at hk
    exact ⟨.emptyMap, (fits_map hk' ht).mpr (.inl rfl), hk.symm⟩
  | tuple ht ih =>
    rw [kinds, List.mem_singleton] at hk
    obtain ⟨xs, hxs⟩ := forall₂_of_forall fun t hts =>
      let ⟨_, hk⟩ := kinds_ne_nil (ht t hts)
      let ⟨x, hx, _⟩ := ih t hts hk
      ⟨x, hx⟩
    exact ⟨.array xs, (fits_tuple ht).mpr ⟨xs, rfl, hxs⟩, hk.symm⟩
  | result ht =>
    rw [kinds, List.mem_singleton] at hk
    exact ⟨.array [.leaf .nil, .leaf .nil],
      (fits_result ht).mpr ⟨_, _, rfl, .inr rfl, .inr rfl⟩, hk.symm⟩
  | @«class» c _ =>
    rw [kinds, List.mem_singleton] at hk
    exact ⟨.instance (tbl.classRef c), fits_class.mpr ⟨_, rfl, List.mem_cons_self⟩, hk.symm⟩
  | union hne hms ih =>
    obtain ⟨m, hm, hk⟩ := mem_kindsAll.mp hk
    obtain ⟨x, hx, hxk⟩ := ih m hm hk
    exact ⟨x, (fits_union (.union hne hms)).mpr ⟨m, hm, hx⟩, hxk⟩

theorem Data.inhabited (ht : t.Data tbl) : ∃ x, Fits tbl D t x :=
  let ⟨_, hk⟩ := kinds_ne_nil ht
  let ⟨x, hx, _⟩ := exists_of_kind ht hk
  ⟨x, hx⟩

theorem Misshapen.rejects (hm : Misshapen s d) (hs : s.Data tbl) (hd : d.Data tbl)
    (hx : Fits tbl D s x) : ¬ Fits tbl D d x := by
  intro hx'
  cases hm with
  | kinds hk => exact hk _ (fits_kind hs hx) (fits_kind hd hx')
  | tuples hlen =>
    cases hs with | tuple hs =>
    cases hd with | tuple hd =>
    obtain ⟨xs, rfl, hxs⟩ := (fits_tuple hs).mp hx
    obtain ⟨_, hx', hxs'⟩ := (fits_tuple hd).mp hx'
    cases hx'
    exact hlen (hxs.length_eq.trans hxs'.length_eq.symm)
  | tupleResult hlen =>
    cases hs with | tuple hs =>
    cases hd with | result hd =>
    obtain ⟨xs, rfl, hxs⟩ := (fits_tuple hs).mp hx
    obtain ⟨y, z, hx', -⟩ := (fits_result hd).mp hx'
    cases hx'
    exact hlen hxs.length_eq
  | resultTuple hlen =>
    cases hs with | result hs =>
    cases hd with | tuple hd =>
    obtain ⟨y, z, rfl, -⟩ := (fits_result hs).mp hx
    obtain ⟨_, hx', hxs'⟩ := (fits_tuple hd).mp hx'
    cases hx'
    exact hlen hxs'.length_eq

section Refusals

variable {conf : CheckTy → Nat → Compat3} {left : Nat}

theorem toUnion_no {vs : List Compat3} (h : Compat3.toUnion vs = .no) : ∀ v ∈ vs, v = .no := by
  intro v hv
  unfold Compat3.toUnion at h
  split at h
  · cases h
  next hy =>
    split at h
    next hu =>
      cases v with
      | no => rfl
      | yes => exact absurd hv hy
      | unknown => exact absurd hv hu.1
    · cases h

theorem ofUnion_no {vs : List Compat3} (h : Compat3.ofUnion vs = .no) : .no ∈ vs := by
  unfold Compat3.ofUnion at h
  split at h
  next hn => exact hn
  next => split at h <;> cases h

theorem meet_no {a b : Compat3} (h : a.meet b = .no) : a = .no ∨ b = .no := by
  cases a <;> cases b <;> simp_all [Compat3.meet]

theorem foldl_meet_no {vs : List Compat3} {v : Compat3} (h : vs.foldl .meet v = .no) :
    v = .no ∨ .no ∈ vs := by
  induction vs generalizing v with
  | nil => exact .inl h
  | cons w vs ih =>
    obtain h | h := ih h
    · obtain h | h := meet_no h
      · exact .inl h
      · exact .inr (h ▸ List.mem_cons_self)
    · exact .inr (List.mem_cons_of_mem _ h)

theorem Data.unliteral (h : t.Data tbl) : t.unliteral = t := by cases h <;> rfl

theorem Data.ne_never (h : t.Data tbl) : t ≠ .never := by
  rintro rfl
  cases h

theorem Data.isGradual (h : t.Data tbl) (ha : t ≠ .any) : t.isGradual = false := by
  cases h <;> first | rfl | exact absurd rfl ha

theorem Data.refused (hs : s.Data tbl) (hd : d.Data tbl)
    (hno : assignableDepth tbl conf left s d = .no) :
    ∃ l, rules tbl (assignableDepth tbl conf l) conf s d = .no ∧ s ≠ .any ∧ d ≠ .any := by
  cases left with
  | zero => cases hno
  | succ l =>
    refine ⟨l, ?_⟩
    rw [assignableDepth] at hno
    have hs' : s ≠ .any := by
      rintro rfl
      cases hno
    have hd' : d ≠ .any := by
      rintro rfl
      rw [assignableStep_any] at hno
      cases hno
    rw [assignableStep_rules (hs.isGradual hs') (hd.isGradual hd') hs.ne_never hd.ne_never,
      hs.unliteral, hd.unliteral] at hno
    exact ⟨hno, hs', hd'⟩

theorem Data.refused_member (hs : s.Data tbl) (hd : d.Data tbl) (hn : s ≠ .nil)
    (hno : assignableDepth tbl conf left s d = .no) (hm : m ∈ members d) :
    ∃ l, assignableDepth tbl conf l s m = .no := by
  cases d with
  | union ds =>
    obtain ⟨l, hr, ha, -⟩ := hs.refused hd hno
    have hr : Compat3.toUnion (ds.map (assignableDepth tbl conf l s)) = .no := by
      cases s <;> first | exact absurd rfl hn | exact hr
    exact ⟨l, toUnion_no hr _ (List.mem_map_of_mem hm)⟩
  | _ =>
    cases List.mem_singleton.mp hm
    exact ⟨left, hno⟩

theorem Data.of_member (hd : d.Data tbl) (hm : m ∈ members d) : m.Data tbl := by
  cases hd with
  | union _ hms => exact hms m hm
  | _ =>
    cases List.mem_singleton.mp hm
    constructor <;> assumption

theorem Data.fits_member (hd : d.Data tbl) : Fits tbl D d x ↔ ∃ m ∈ members d, Fits tbl D m x := by
  cases d with
  | union ms => exact fits_union hd
  | _ => simp [members]

theorem Normal.member (hd : d.Normal) (hm : m ∈ members d) : m.isUnion = false ∧ m.Normal := by
  cases hd with
  | union hu hms =>
    refine ⟨?_, hms m hm⟩
    have := hu.members.1 m hm
    cases m <;> first | rfl | cases this
  | _ =>
    cases List.mem_singleton.mp hm
    exact ⟨rfl, by constructor <;> assumption⟩

theorem prim_refused {p : Prim} (hs : (CheckTy.prim p).Data tbl) (hd : d.Data tbl)
    (hu : d.isUnion = false) (hno : assignableDepth tbl conf left (.prim p) d = .no)
    (he : p = .object → d ≠ .prim .error) : Kind.shown p ∉ kinds d := by
  obtain ⟨l, hr, -, ha⟩ := hs.refused hd hno
  cases hs <;> cases hd <;>
    first
      | (cases hu; done)
      | (cases hr; done)
      | exact absurd rfl ha
      | exact absurd rfl (he rfl)
      | simp [kinds, Kind.ofPrim, Kind.shown]

theorem class_refused (hp : tbl.ParentsDeclared) (hs : (CheckTy.class c).Data tbl)
    (hd : d.Data tbl) (hu : d.isUnion = false)
    (hno : assignableDepth tbl conf left (.class c) d = .no) :
    ¬ Fits tbl D d (.instance (tbl.classRef c)) := by
  obtain ⟨l, hr, -, ha⟩ := hs.refused hd hno
  intro hx
  cases hd with
  | @«class» e he =>
    cases hs with | «class» hc =>
    obtain ⟨_, hcls, hmem⟩ := fits_class.mp hx
    cases hcls
    have hsub := (Table.classRef_names hp hc he).mp hmem
    have hr : (if tbl.isSubclass c e then Compat3.yes else .no) = .no := hr
    rw [if_pos hsub] at hr
    cases hr
  | any => exact ha rfl
  | number | int | float | string | bool | object | error =>
    have := fits_kind (by constructor) hx
    simp [kinds, Kind.ofPrim, Tree.kind] at this
  | union => cases hu
  | _ => cases hr

def Outgrows (tbl : Table) (D : Type) (xs : List Tree) : CheckTy → Prop
  | .array t => ∃ x ∈ xs, ¬ Fits tbl D t x
  | .tuple ts => ts.length < xs.length
  | _ => True

theorem Outgrows.append (h : Outgrows tbl D xs t) (ys : List Tree) :
    Outgrows tbl D (ys ++ xs) t := by
  cases t with
  | array t =>
    obtain ⟨x, hx, hf⟩ := h
    exact ⟨x, List.mem_append_right _ hx, hf⟩
  | tuple ts =>
    have h : ts.length < xs.length := h
    show ts.length < (ys ++ xs).length
    rw [List.length_append]
    omega
  | _ => trivial

theorem Outgrows.rejects (h : Outgrows tbl D xs t) (ht : t.Data tbl) (hu : t.isUnion = false)
    (ha : t ≠ .any) (hlen : 2 < xs.length) : ¬ Fits tbl D t (.array xs) := by
  intro hx
  cases ht with
  | any => exact ha rfl
  | union => cases hu
  | array ht =>
    obtain ⟨_, he, hall⟩ := (fits_array ht).mp hx
    cases he
    obtain ⟨x, hx, hf⟩ := h
    exact hf (hall x hx)
  | @tuple ts ht =>
    obtain ⟨_, he, hall⟩ := (fits_tuple ht).mp hx
    cases he
    have h : ts.length < xs.length := h
    exact absurd hall.length_eq (Nat.ne_of_lt h)
  | result ht =>
    obtain ⟨y, z, he, -⟩ := (fits_result ht).mp hx
    cases he
    exact Nat.lt_irrefl 2 hlen
  | number | int | float | string | bool | object | error =>
    have := fits_kind (by constructor) hx
    simp [kinds, Kind.ofPrim, Tree.kind] at this
  | nil => cases fits_nil.mp hx
  | map hk ht => obtain he | ⟨_, _, he, -⟩ := (fits_map hk ht).mp hx <;> cases he
  | «class» =>
    obtain ⟨_, he, -⟩ := fits_class.mp hx
    cases he

theorem exists_outgrows (hs : s.Data tbl)
    (hx : ∀ t, .array t ∈ ms → ∃ x, Fits tbl D s x ∧ ¬ Fits tbl D t x) :
    ∃ xs, (∀ x ∈ xs, Fits tbl D s x) ∧ 2 < xs.length ∧ ∀ m ∈ ms, Outgrows tbl D xs m := by
  obtain ⟨pad, hpad⟩ : ∃ pad, Fits tbl D s pad := hs.inhabited
  induction ms with
  | nil => exact ⟨[pad, pad, pad], by simpa using hpad, by simp, nofun⟩
  | cons m ms ih =>
    obtain ⟨xs, hxs, hlen, hout⟩ := ih fun t ht => hx t (List.mem_cons_of_mem _ ht)
    obtain ⟨ys, hys, hm⟩ : ∃ ys, (∀ y ∈ ys, Fits tbl D s y) ∧ Outgrows tbl D (ys ++ xs) m := by
      cases m with
      | array t =>
        obtain ⟨x, hxs, hxt⟩ := hx t List.mem_cons_self
        exact ⟨[x], by simpa using hxs, x, by simp, hxt⟩
      | tuple ts =>
        refine ⟨List.replicate ts.length pad, fun y hy => List.eq_of_mem_replicate hy ▸ hpad, ?_⟩
        show ts.length < (List.replicate ts.length pad ++ xs).length
        rw [List.length_append, List.length_replicate]
        omega
      | _ => exact ⟨[], nofun, trivial⟩
    refine ⟨ys ++ xs, ?_, ?_, List.forall_mem_cons.mpr ⟨hm, fun m' hm' => (hout m' hm').append ys⟩⟩
    · exact fun x hx => (List.mem_append.mp hx).elim (hys x) (hxs x)
    · rw [List.length_append]
      omega

theorem exists_tuple (hlen : ss.length = ds.length) (hs : ∀ s ∈ ss, ∃ x, Fits tbl D s x)
    (hp : p ∈ ss.zip ds) (hx : Fits tbl D p.1 x) (hx' : ¬ Fits tbl D p.2 x) :
    ∃ xs, List.Forall₂ (Fits tbl D) ss xs ∧ ¬ List.Forall₂ (Fits tbl D) ds xs := by
  induction ss generalizing ds with
  | nil => cases hp
  | cons s ss ih =>
    cases ds with
    | nil => cases hp
    | cons d ds =>
      rw [List.zip_cons_cons] at hp
      cases hp with
      | head =>
        obtain ⟨xs, hxs⟩ := forall₂_of_forall fun t ht => hs t (List.mem_cons_of_mem _ ht)
        exact ⟨x :: xs, .cons hx hxs, fun h => hx' (List.forall₂_cons.mp h).1⟩
      | tail _ hp =>
        obtain ⟨y, hy⟩ := hs s List.mem_cons_self
        obtain ⟨xs, hxs, hxs'⟩ := ih (Nat.succ.inj hlen)
          (fun t ht => hs t (List.mem_cons_of_mem _ ht)) hp
        exact ⟨y :: xs, .cons hy hxs, fun h => hxs' (List.forall₂_cons.mp h).2⟩

theorem exists_leaf (ht : t.Data tbl) (hk : t.isKey = true) (hx : Fits tbl D t x) :
    ∃ key, x = .leaf key := by
  have h := List.all_eq_true.mp hk _ (fits_kind ht hx)
  cases x <;> first | exact ⟨_, rfl⟩ | (simp [Tree.kind] at h)

theorem exists_result (hs : s.Data tbl) (hd : d.Data tbl) (hx : Fits tbl D s x)
    (hx' : ¬ Fits tbl D d x) (hk : x.kind ≠ .nil) :
    ∃ y, Fits tbl D (.result s) y ∧ ¬ Fits tbl D (.result d) y := by
  refine ⟨.array [x, .leaf .nil], (fits_result hs).mpr ⟨_, _, rfl, .inl hx, .inr rfl⟩, fun h => ?_⟩
  obtain ⟨_, _, he, h, -⟩ := (fits_result hd).mp h
  cases he
  exact h.elim hx' hk

theorem Clean.separated (hp : tbl.ParentsDeclared) (hc : Clean s d) (hs : s.Data tbl)
    (hd : d.Data tbl) (hn : d.Normal) (hno : assignableDepth tbl conf left s d = .no) :
    ∃ x, Fits tbl D s x ∧ ¬ Fits tbl D d x := by
  induction hc generalizing left with
  | foreign hks hkd =>
    obtain ⟨x, hx, rfl⟩ := exists_of_kind hs hks
    exact ⟨x, hx, fun hx' => hkd (fits_kind hd hx')⟩
  | misshapen hm =>
    obtain ⟨x, hx⟩ := hs.inhabited
    exact ⟨x, hx, hm.rejects hs hd hx⟩
  | any =>
    obtain ⟨_, _, ha, _⟩ := hs.refused hd hno
    exact absurd rfl ha
  | toAny =>
    obtain ⟨_, _, _, ha⟩ := hs.refused hd hno
    exact absurd rfl ha
  | @prim p d he =>
    refine ⟨.sample (Kind.shown p), (fits_prim hs).mpr ?_, fun hx => ?_⟩
    · cases p <;> simp [Kind.ofPrim, Kind.shown, Tree.sample, Tree.kind]
    · obtain ⟨m, hm, hx⟩ := hd.fits_member.mp hx
      obtain ⟨l, hno⟩ := hs.refused_member hd (fun h => by cases h) hno hm
      refine prim_refused hs (hd.of_member hm) (hn.member hm).1 hno (fun hp hme => ?_) ?_
      · exact he hp (hme ▸ hm)
      · simpa using fits_kind (hd.of_member hm) hx
  | @nil d hm =>
    obtain ⟨l, hr, -⟩ := hs.refused hd hno
    have hr : nilRule d = .no := hr
    cases d with
    | union ms =>
      have hany : ms.any isNilTy = true := List.any_eq_true.mpr ⟨.nil, hm, rfl⟩
      rw [nilRule, hany] at hr
      cases hr
    | nil => cases hr
    | _ => cases List.mem_singleton.mp hm
  | «class» =>
    refine ⟨.instance (tbl.classRef _), fits_class.mpr ⟨_, rfl, List.mem_cons_self⟩, fun hx => ?_⟩
    obtain ⟨m, hm, hx⟩ := hd.fits_member.mp hx
    obtain ⟨l, hno⟩ := hs.refused_member hd (fun h => by cases h) hno hm
    exact class_refused hp hs (hd.of_member hm) (hn.member hm).1 hno hx
  | @array d s _ ih =>
    cases hs with | array hs =>
    have hmember := fun m (hm : m ∈ members d) => (Data.array hs).refused_member hd
      (fun h => by cases h) hno hm
    have helem : ∀ t, .array t ∈ members d → ∃ x, Fits tbl D s x ∧ ¬ Fits tbl D t x := by
      intro t ht
      obtain ⟨l, hno⟩ := hmember _ ht
      cases hd.of_member ht with | array hdt =>
      cases (hn.member ht).2 with | array hnt =>
      obtain ⟨l, hr, -⟩ := (Data.array hs).refused (.array hdt) hno
      exact ih t ht hs hdt hnt hr
    obtain ⟨xs, hxs, hlen, hout⟩ := exists_outgrows hs helem
    refine ⟨.array xs, (fits_array hs).mpr ⟨xs, rfl, hxs⟩, fun hx => ?_⟩
    obtain ⟨m, hm, hx⟩ := hd.fits_member.mp hx
    obtain ⟨l, hno⟩ := hmember m hm
    obtain ⟨l, -, -, ha⟩ := (Data.array hs).refused (hd.of_member hm) hno
    exact (hout m hm).rejects (hd.of_member hm) (hn.member hm).1 ha hlen hx
  | @tuple ss ds _ ih =>
    cases hs with | tuple hs =>
    cases hd with | tuple hd =>
    cases hn with | tuple hn =>
    by_cases hlen : ss.length = ds.length
    · obtain ⟨l, hr, -⟩ := (Data.tuple hs).refused (.tuple hd) hno
      have hr : (if ss.length ≠ ds.length then Compat3.no
          else ((ss.zip ds).map fun p => assignableDepth tbl conf l p.1 p.2).foldl .meet .yes) =
          .no := hr
      rw [if_neg (not_not.mpr hlen)] at hr
      obtain hr | hr := foldl_meet_no hr
      · cases hr
      obtain ⟨p, hp, hr⟩ := List.mem_map.mp hr
      obtain ⟨hp1, hp2⟩ := List.of_mem_zip hp
      obtain ⟨x, hx, hx'⟩ := ih p hp (hs _ hp1) (hd _ hp2) (hn _ hp2) hr
      obtain ⟨xs, hxs, hxs'⟩ := exists_tuple hlen (fun t ht => (hs t ht).inhabited) hp hx hx'
      refine ⟨.array xs, (fits_tuple hs).mpr ⟨xs, rfl, hxs⟩, fun h => ?_⟩
      obtain ⟨_, he, h⟩ := (fits_tuple hd).mp h
      cases he
      exact hxs' h
    · obtain ⟨x, hx⟩ := (Data.tuple hs).inhabited
      exact ⟨x, hx, (Misshapen.tuples hlen).rejects (.tuple hs) (.tuple hd) hx⟩
  | @result s d hnil _ ih =>
    cases hs with | result hs =>
    cases hd with | result hd =>
    cases hn with | result hn =>
    obtain ⟨l, hr, -⟩ := (Data.result hs).refused (.result hd) hno
    obtain ⟨x, hx, hx'⟩ := ih hs hd hn hr
    refine exists_result hs hd hx hx' fun hk => hnil (hk ▸ fits_kind hs hx)
  | resultForeign hk hks hkd =>
    cases hs with | result hs =>
    cases hd with | result hd =>
    obtain ⟨x, hx, rfl⟩ := exists_of_kind hs hks
    exact exists_result hs hd hx (fun hx' => hkd (fits_kind hd hx')) hk
  | @map k k' s d hkey _ _ ihk ih =>
    cases hs with | map hsk hs =>
    cases hd with | map hdk hd =>
    cases hn with | map hnk hn =>
    obtain ⟨l, hr, -⟩ := (Data.map hsk hs).refused (.map hdk hd) hno
    have hleaf : ∃ key, Fits tbl D k (.leaf key) := by
      obtain rfl | hkey := hkey
      · exact ⟨.nil, fits_any⟩
      · obtain ⟨x, hx⟩ := hsk.inhabited
        obtain ⟨key, rfl⟩ := exists_leaf hsk hkey hx
        exact ⟨key, hx⟩
    obtain hr | hr := meet_no hr
    · obtain ⟨x, hx, hx'⟩ := ihk hsk hdk hnk hr
      obtain rfl | hkey := hkey
      · obtain ⟨_, _, ha, _⟩ := hsk.refused hdk hr
        exact absurd rfl ha
      obtain ⟨key, rfl⟩ := exists_leaf hsk hkey hx
      obtain ⟨y, hy⟩ := hs.inhabited
      refine ⟨.singleton key y, (fits_map hsk hs).mpr (.inr ⟨key, y, rfl, hx, hy⟩), fun h => ?_⟩
      obtain he | ⟨_, _, he, h, -⟩ := (fits_map hdk hd).mp h <;> cases he
      exact hx' h
    · obtain ⟨y, hy, hy'⟩ := ih hs hd hn hr
      obtain ⟨key, hkey⟩ := hleaf
      refine ⟨.singleton key y, (fits_map hsk hs).mpr (.inr ⟨key, y, rfl, hkey, hy⟩), fun h => ?_⟩
      obtain he | ⟨_, _, he, -, h⟩ := (fits_map hdk hd).mp h <;> cases he
      exact hy' h
  | @source ms d hu _ ih =>
    obtain ⟨l, hr, -⟩ := hs.refused hd hno
    have hr : Compat3.ofUnion (ms.map fun m => assignableDepth tbl conf l m d) = .no := by
      cases d <;> first | (cases hu; done) | exact hr
    obtain ⟨m, hm, hr⟩ := List.mem_map.mp (ofUnion_no hr)
    obtain ⟨x, hx, hx'⟩ := ih m hm (hs.of_member (d := .union ms) hm) hd hn hr
    exact ⟨x, (fits_union hs).mpr ⟨m, hm, hx⟩, hx'⟩
  | @one s ds d hnil hm _ hothers ih =>
    obtain ⟨l, hr⟩ := hs.refused_member hd hnil hno (m := d) hm
    have hdm := hd.of_member (m := d) hm
    obtain ⟨x, hx, hx'⟩ := ih hs hdm (hn.member (m := d) hm).2 hr
    refine ⟨x, hx, fun h => ?_⟩
    obtain ⟨m, hm, h⟩ := (fits_union hd).mp h
    obtain rfl | hmis := hothers m hm
    · exact hx' h
    · exact hmis.rejects hs (hd.of_member (d := .union ds) hm) hx h

end Refusals

/-- Some value is accepted at one type by the runtime check and rejected at the other. -/
def Separable (tbl : Table) (D : Type) (s d : CheckTy) : Prop :=
  ∃ S T, s.toType tbl = some S ∧ d.toType tbl = some T ∧
    ∃ (A : Type) (h : Heap D A) (v : Val D A), checkType h S v = true ∧ checkType h T v = false

theorem separable_iff (hs : s.toType tbl = some S) (hd : d.toType tbl = some T) :
    Separable tbl D s d ↔ ∃ (A : Type) (h : Heap D A) (v : Val D A),
      checkType h S v = true ∧ checkType h T v = false := by
  constructor
  · rintro ⟨S', T', hS, hT, h⟩
    cases hs.symm.trans hS
    cases hd.symm.trans hT
    exact h
  · exact fun h => ⟨S, T, hs, hd, h⟩

theorem separable_of_fits (hs : s.Data tbl) (hd : d.Data tbl) (hx : Fits tbl D s x)
    (hx' : ¬ Fits tbl D d x) : Separable tbl D s d := by
  obtain ⟨S, hS⟩ := Option.isSome_iff_exists.mp hs.typed
  obtain ⟨T, hT⟩ := Option.isSome_iff_exists.mp hd.typed
  rw [Fits, Accepts.iff hS] at hx
  rw [Fits, Accepts.iff hT, Bool.not_eq_true] at hx'
  exact ⟨S, T, hS, hT, Tree, Tree.heap, x.toVal, hx, hx'⟩

theorem fits_of_members (hs : s.Data tbl) (hd : d.Data tbl)
    (hm : ∀ m ∈ members s, m ∈ members d) (hx : Fits tbl D s x) : Fits tbl D d x := by
  obtain ⟨m, hms, hx⟩ := hs.fits_member.mp hx
  exact hd.fits_member.mpr ⟨m, hm m hms, hx⟩

end CheckTy

open CheckTy

/-- Where comparisons stay with the sound rules, a refusal is shown by a value, and no type
is refused at a type with all of its members. -/
theorem no_is_provable {tbl : Table} {s d : CheckTy} (hp : tbl.ParentsDeclared)
    (hs : s.Data tbl) (hd : d.Data tbl) (hn : d.Normal) (hc : Clean s d) (n : Nat) (D : Type) :
    (assignable tbl n s d = .no → Separable tbl D s d) ∧
      ((∀ m ∈ members s, m ∈ members d) → assignable tbl n s d ≠ .no) := by
  refine ⟨fun hno => ?_, fun hm hno => ?_⟩
  · obtain ⟨x, hx, hx'⟩ : ∃ x, Fits tbl D s x ∧ ¬ Fits tbl D d x := hc.separated hp hs hd hn hno
    exact separable_of_fits hs hd hx hx'
  · obtain ⟨x, hx, hx'⟩ : ∃ x, Fits tbl D s x ∧ ¬ Fits tbl D d x := hc.separated hp hs hd hn hno
    exact hx' (fits_of_members hs hd hm hx)

/-- Two unrelated classes. -/
def twoClasses : Table where
  classes := [⟨"A", none, []⟩, ⟨"B", none, []⟩]
  enums := []
  interfaces := []
  classByName name := if name = "A" then some 0 else if name = "B" then some 1 else none

theorem twoClasses_parents : twoClasses.ParentsDeclared := by
  intro c p hcp
  match c, hcp with
  | 0, hcp | 1, hcp => cases hcp
  | c + 2, hcp => simp [twoClasses, Table.parent] at hcp

theorem no_is_provable_classes :
    assignable twoClasses 0 (.array (.class 1)) (.union [.prim .string, .array (.class 0)]) = .no ∧
      Separable twoClasses Unit (.array (.class 1))
        (.union [.prim .string, .array (.class 0)]) := by
  have hs : (CheckTy.array (.class 1)).Data twoClasses := .array (.class rfl)
  have hd : (CheckTy.union [.prim .string, .array (.class 0)]).Data twoClasses := by
    refine .union nofun fun m hm => ?_
    simp only [List.mem_cons, List.not_mem_nil, or_false] at hm
    obtain rfl | rfl := hm
    · exact .string
    · exact .array (.class rfl)
  have hn : (CheckTy.union [.prim .string, .array (.class 0)]).Normal := by
    refine .union rfl fun m hm => ?_
    simp only [List.mem_cons, List.not_mem_nil, or_false] at hm
    obtain rfl | rfl := hm
    · exact .prim
    · exact .array .class
  have hc : Clean (.array (.class 1))
    (.union [.prim .string, .array (.class 0)]) := .array fun _ ht => by
    simp only [members, List.mem_cons, reduceCtorEq, CheckTy.array.injEq, List.not_mem_nil,
      or_false, false_or] at ht
    subst ht
    exact .class
  exact ⟨rfl, (no_is_provable twoClasses_parents hs hd hn hc 0 Unit).1 rfl⟩

theorem not_separable_of_imp {tbl : Table} {s d : CheckTy} {S T : Ty} {D : Type}
    (hs : s.toType tbl = some S) (hd : d.toType tbl = some T)
    (h : ∀ (A : Type) (h : Heap D A) (v : Val D A), checkType h S v = true →
      checkType h T v = true) :
    ¬ Separable tbl D s d := by
  rw [separable_iff hs hd]
  rintro ⟨A, hp, v, hS, hT⟩
  rw [h A hp v hS] at hT
  cases hT

/-- A normal union is refused at itself, nil and object at error, a tuple at the array of its
elements' type, and a result of nil at other results. -/
theorem union_refused_at_itself :
    let tbl : Table := ⟨[], [], [], fun _ => none⟩
    let u : CheckTy := .union [.prim .int, .prim .string]
    (u.Normal ∧ assignable tbl 0 u u = .no ∧ ¬ Separable tbl Unit u u) ∧
      (assignable tbl 0 .nil (.prim .error) = .no ∧ ¬ Separable tbl Unit .nil (.prim .error)) ∧
      (assignable tbl 0 (.prim .object) (.prim .error) = .no ∧
        ¬ Separable tbl Unit (.prim .object) (.prim .error)) ∧
      (assignable tbl 0 (.tuple [.prim .int]) (.array (.prim .int)) = .no ∧
        ¬ Separable tbl Unit (.tuple [.prim .int]) (.array (.prim .int))) ∧
      (assignable tbl 0 (.result .nil) (.result (.prim .int)) = .no ∧
        ¬ Separable tbl Unit (.result .nil) (.result (.prim .int))) := by
  refine ⟨⟨.union rfl ?_, rfl, not_separable_of_imp rfl rfl fun A h v hv => hv⟩,
    ⟨rfl, not_separable_of_imp rfl rfl fun A h v hv => ?_⟩,
    ⟨rfl, not_separable_of_imp rfl rfl fun A h v hv => ?_⟩,
    ⟨rfl, not_separable_of_imp rfl rfl fun A h v hv => ?_⟩,
    ⟨rfl, not_separable_of_imp rfl rfl fun A h v hv => ?_⟩⟩
  · intro m hm
    simp only [List.mem_cons, List.not_mem_nil, or_false] at hm
    obtain rfl | rfl := hm <;> exact .prim
  · rw [checkType] at hv
    rw [Prim.toType, checkType, hv, Bool.or_true]
  · rw [Prim.toType, checkType] at hv
    rw [Prim.toType, checkType, hv, Bool.true_or]
  · simp only [checkType] at hv ⊢
    split at hv
    next items _ =>
      rcases items with - | ⟨x, - | ⟨y, rest⟩⟩
      · simp [checkTypes] at hv
      · simpa [checkTypes] using hv
      · simp [checkTypes] at hv
    next => cases hv
  · simp only [checkType] at hv ⊢
    split at hv
    next x y _ =>
      rw [Bool.and_eq_true, Bool.or_self] at hv
      rw [hv.1, hv.2, Bool.or_true, Bool.and_self]
    next => cases hv

end AScript.Check
