import AScript.Check.Denotation

/-! Which contracts may be left out (`check/infer/elide.rs`), and that leaving them out on an
assignable verdict is sound. -/

namespace AScript.Check

open AScript.Syntax AScript.Runtime

namespace CheckTy

mutual

/-- `elide_safe`: the check depends on the stable kind of the value only. -/
def elideSafe : CheckTy → Bool
  | .prim .int | .prim .float | .prim .number | .prim .string | .prim .bool | .prim .fn => true
  | .nil | .any | .var _ _ | .fnSig _ _ | .literal _ => true
  | .array .any => true
  | .map .any .any => true
  | .union ms => !ms.isEmpty && allElideSafe ms
  | _ => false

def allElideSafe : List CheckTy → Bool
  | [] => true
  | m :: ms => elideSafe m && allElideSafe ms

end

/-- `anchors_binding_kind`. -/
def anchorsBindingKind (t : CheckTy) : Bool := elideSafe t && !t.isGradual

theorem allElideSafe_mem (h : allElideSafe ms = true) (hm : m ∈ ms) : elideSafe m = true := by
  induction ms with
  | nil => cases hm
  | cons t ts ih =>
    rw [allElideSafe, Bool.and_eq_true] at h
    cases hm with
    | head => exact h.1
    | tail _ hm => exact ih h.2 hm

theorem elideSafe_array (h : elideSafe (.array t) = true) : t = .any := by
  cases t with
  | any => rfl
  | _ => cases h

theorem elideSafe_map (h : elideSafe (.map k v) = true) : k = .any ∧ v = .any := by
  cases k with
  | any =>
    cases v with
    | any => exact ⟨rfl, rfl⟩
    | _ => cases h
  | _ => cases h

theorem elideSafe_union (h : elideSafe (.union ms) = true) : ∀ m ∈ ms, elideSafe m = true := by
  rw [elideSafe, Bool.and_eq_true] at h
  exact fun m hm => allElideSafe_mem h.2 hm

def kindOnly : Ty → Bool
  | .number | .int | .float | .string | .bool | .nil | .any | .fn | .param _ | .fnSig _ _ => true
  | .array .any | .map .any .any => true
  | .union a b => kindOnly a && kindOnly b
  | _ => false

theorem kindOnly_unionOf (hu : unionOf ts = some ty) (hk : ∀ t ∈ ts, kindOnly t = true) :
    kindOnly ty = true := by
  induction ts generalizing ty with
  | nil => cases hu
  | cons t ts ih =>
    cases ts with
    | nil =>
      cases hu
      exact hk _ List.mem_cons_self
    | cons t' ts =>
      obtain ⟨ty', hty', rfl⟩ := Option.map_eq_some_iff.mp hu
      rw [kindOnly, hk t List.mem_cons_self,
        ih hty' fun x hx => hk x (List.mem_cons_of_mem _ hx)]
      rfl

mutual

theorem elideSafe_kindOnly (t : CheckTy) (he : elideSafe t = true)
    (ht : t.toType tbl = some ty) : kindOnly ty = true := by
  cases t with
  | union ms =>
    rw [elideSafe, Bool.and_eq_true] at he
    rw [toType] at ht
    obtain ⟨ts, hts, hu⟩ := Option.bind_eq_some_iff.mp ht
    exact kindOnly_unionOf hu (elideSafe_kindOnlys ms he.2 hts)
  | prim p =>
    cases p <;> first | (cases ht; rfl) | cases he
  | array t =>
    obtain rfl := elideSafe_array he
    cases ht
    rfl
  | map k v =>
    obtain ⟨rfl, rfl⟩ := elideSafe_map he
    cases ht
    rfl
  | literal l =>
    cases l <;> (cases ht; rfl)
  | fnSig ps r =>
    rw [toType] at ht
    obtain ⟨ps', -, ht⟩ := Option.bind_eq_some_iff.mp ht
    obtain ⟨r', -, rfl⟩ := Option.map_eq_some_iff.mp ht
    rfl
  | any | nil | var =>
    cases ht
    rfl
  | _ => cases he

theorem elideSafe_kindOnlys (ms : List CheckTy) (he : allElideSafe ms = true)
    (ht : toTypes tbl ms = some ts) : ∀ t ∈ ts, kindOnly t = true := by
  cases ms with
  | nil =>
    cases ht
    exact fun t ht => nomatch ht
  | cons m ms =>
    rw [allElideSafe, Bool.and_eq_true] at he
    rw [toTypes] at ht
    obtain ⟨t, hm, ht⟩ := Option.bind_eq_some_iff.mp ht
    obtain ⟨ts', hms, rfl⟩ := Option.map_eq_some_iff.mp ht
    exact List.forall_mem_cons.mpr
      ⟨elideSafe_kindOnly m he.1 hm, elideSafe_kindOnlys ms he.2 hms⟩

end

section Stable

variable {tbl : Table} {D A E : Type} {h h' : Heap D A} {v : Val D A}

theorem checkType_array_any :
    checkType h (.array .any) v = (h.cellKind? v == some .array) := by
  simp only [checkType, Heap.cellKind?]
  cases h.cell? v with
  | none => rfl
  | some c => cases c <;> simp [Cell.kind]

theorem checkType_map_any :
    checkType h (.map .any .any) v = (h.cellKind? v == some .map) := by
  simp only [checkType, Heap.cellKind?]
  cases h.cell? v with
  | none => rfl
  | some c => cases c <;> simp [Cell.kind]

theorem kindOnly_stable (hk : h.SameKinds h') (ht : kindOnly ty = true) :
    checkType h ty v = checkType h' ty v := by
  fun_induction kindOnly ty with
  | case11 => rw [checkType_array_any, checkType_array_any, hk.cellKind?]
  | case12 => rw [checkType_map_any, checkType_map_any, hk.cellKind?]
  | case13 a b iha ihb =>
    rw [Bool.and_eq_true] at ht
    rw [checkType, checkType, iha ht.1, ihb ht.2]
  | case14 => cases ht
  | _ => cases v <;> rfl

theorem allM_ok {f : α → Except E Bool} {p : α → Bool} (hf : ∀ x ∈ xs, f x = .ok (p x)) :
    allM f xs = .ok (xs.all p) := by
  induction xs with
  | nil => rfl
  | cons x xs ih =>
    rw [allM, hf x List.mem_cons_self, ih fun y hy => hf y (List.mem_cons_of_mem _ hy)]
    cases hp : p x <;> simp [hp, bind, Except.bind, pure, Except.pure]

theorem kindOnly_env (env : Env D A E) (ht : kindOnly ty = true) :
    checkTypeEnv h env ty v = .ok (checkType h ty v) := by
  fun_induction kindOnly ty with
  | case11 =>
    simp only [checkTypeEnv, checkType]
    split
    · exact allM_ok fun x _ => rfl
    · rfl
  | case12 =>
    simp only [checkTypeEnv, checkType]
    split
    · exact allM_ok fun x _ => rfl
    · rfl
  | case13 a b iha ihb =>
    rw [Bool.and_eq_true] at ht
    rw [checkTypeEnv, checkType, iha ht.1, ihb ht.2]
    cases checkType h a v <;> rfl
  | case14 => cases ht
  | _ => rfl

end Stable

section Sound

variable {tbl : Table} {D A E : Type} {h : Heap D A} {v : Val D A}
  {conf : CheckTy → Nat → Compat3}

def isFlat (t : CheckTy) : Bool := elideSafe t && t.isMember

theorem toUnion_yes (hy : Compat3.toUnion vs = .yes) : Compat3.yes ∈ vs := by
  unfold Compat3.toUnion at hy
  split at hy
  · assumption
  · split at hy <;> cases hy

theorem ofUnion_yes (hy : Compat3.ofUnion vs = .yes) : ∀ c ∈ vs, c = .yes := by
  unfold Compat3.ofUnion at hy
  split at hy
  · cases hy
  next hno =>
    split at hy
    next hun =>
      intro c hc
      cases c with
      | yes => rfl
      | no => exact absurd hc hno
      | unknown => exact absurd hc hun.1
    · cases hy

theorem primRule_yes (hy : primRule p q = .yes) (hc : checkType h p.toType v = true) :
    checkType h q.toType v = true := by
  by_cases hpq : p = q
  · exact hpq ▸ hc
  · cases p <;> cases q <;> first | exact absurd rfl hpq | (cases hy; done) | skip
    all_goals
      cases v <;> first | rfl | cases hc

theorem isFlat_cases (ht : isFlat t = true) :
    (∃ p, t = .prim p) ∨ t = .nil ∨ t = .array .any ∨ t = .map .any .any ∨
      ∃ ps r, t = .fnSig ps r := by
  cases t with
  | prim p => exact .inl ⟨p, rfl⟩
  | nil => exact .inr (.inl rfl)
  | array t =>
    obtain rfl := elideSafe_array (Bool.and_eq_true_iff.mp ht).1
    exact .inr (.inr (.inl rfl))
  | map k v =>
    obtain ⟨rfl, rfl⟩ := elideSafe_map (Bool.and_eq_true_iff.mp ht).1
    exact .inr (.inr (.inr (.inl rfl)))
  | fnSig ps r => exact .inr (.inr (.inr (.inr ⟨ps, r, rfl⟩)))
  | union | literal => simp [isFlat, isMember] at ht
  | _ => exact nomatch ht

theorem flatRules_yes {rec : CheckTy → CheckTy → Compat3} (hs : isFlat s = true)
    (hd : isFlat d = true) (hn : s.isNilTy = false) (hy : flatRules tbl rec conf s d = .yes)
    (hty : d.toType tbl = some ty) (ha : s.Accepts tbl h v) : d.Accepts tbl h v := by
  obtain ⟨p, rfl⟩ | rfl | rfl | rfl | ⟨ps, r, rfl⟩ := isFlat_cases hs
  · obtain ⟨q, rfl⟩ | rfl | rfl | rfl | ⟨ps', r', rfl⟩ := isFlat_cases hd
    · exact (Accepts.iff rfl).mpr (primRule_yes hy ((Accepts.iff rfl).mp ha))
    all_goals cases p <;> exact nomatch hy
  · cases hn
  · obtain ⟨q, rfl⟩ | rfl | rfl | rfl | ⟨ps', r', rfl⟩ := isFlat_cases hd
    · cases q <;> exact nomatch hy
    · exact nomatch hy
    · exact ha
    all_goals exact nomatch hy
  · obtain ⟨q, rfl⟩ | rfl | rfl | rfl | ⟨ps', r', rfl⟩ := isFlat_cases hd
    · cases q <;> exact nomatch hy
    · exact nomatch hy
    · exact nomatch hy
    · exact ha
    · exact nomatch hy
  · obtain ⟨q, rfl⟩ | rfl | rfl | rfl | ⟨ps', r', rfl⟩ := isFlat_cases hd
    · cases q <;> exact nomatch hy
    · exact nomatch hy
    · exact nomatch hy
    · exact nomatch hy
    · obtain ⟨sty, hsty, hc⟩ := ha
      rw [toType] at hsty hty
      obtain ⟨_, -, hsty⟩ := Option.bind_eq_some_iff.mp hsty
      obtain ⟨_, -, rfl⟩ := Option.map_eq_some_iff.mp hsty
      refine ⟨ty, by rw [toType]; exact hty, ?_⟩
      obtain ⟨_, -, hty⟩ := Option.bind_eq_some_iff.mp hty
      obtain ⟨_, -, rfl⟩ := Option.map_eq_some_iff.mp hty
      exact hc

variable (tbl) in
structure Anchored (t : CheckTy) : Prop where
  normal : Normal t
  safe : elideSafe t = true
  fixed : t.isGradual = false
  typed : (t.toType tbl).isSome

theorem Anchored.unliteral {t : CheckTy} (ht : t.Anchored tbl) : t.unliteral.Anchored tbl := by
  cases t with
  | literal l =>
    cases l
    case nil => exact ⟨.nil, rfl, rfl, rfl⟩
    all_goals exact ⟨.prim, rfl, rfl, rfl⟩
  | _ => exact ht

theorem accepts_unliteral (t : CheckTy) : t.unliteral.Accepts tbl h v ↔ t.Accepts tbl h v := by
  cases t with
  | literal l => cases l <;> exact Iff.rfl
  | _ => exact Iff.rfl

theorem Anchored.members (ht : (CheckTy.union ms).Anchored tbl) (hm : m ∈ ms) :
    m.Anchored tbl := by
  obtain ⟨hn, hs, -, hty⟩ := ht
  cases hn with
  | union hu hms =>
    refine ⟨hms m hm, elideSafe_union hs m hm, ?_, ?_⟩
    · have := hu.members.1 m hm
      cases m <;> first | rfl | cases this
    · rw [toType] at hty
      have hts : (toTypes tbl ms).isSome := by
        cases hts : toTypes tbl ms with
        | none =>
          rw [hts] at hty
          cases hty
        | some => rfl
      exact toTypes_isSome.mp hts m hm

theorem Anchored.accepts_union (ht : (CheckTy.union ms).Anchored tbl) :
    (CheckTy.union ms).Accepts tbl h v ↔ ∃ m ∈ ms, m.Accepts tbl h v :=
  CheckTy.accepts_union fun _ hm => (ht.members hm).typed

theorem rules_yes {rec : CheckTy → CheckTy → Compat3}
    (hrec : ∀ s d, s.Anchored tbl → d.Anchored tbl → rec s d = .yes → s.Accepts tbl h v →
      d.Accepts tbl h v)
    (hs : s.Anchored tbl) (hd : d.Anchored tbl) (hls : s.unliteral = s) (hld : d.unliteral = d)
    (hy : rules tbl rec conf s d = .yes) (ha : s.Accepts tbl h v) : d.Accepts tbl h v := by
  unfold rules at hy
  split at hy
  next =>
    -- nil goes to nil and to a union with a member nil
    unfold nilRule at hy
    split at hy
    · exact ha
    next ms =>
      split at hy
      next hany =>
        obtain ⟨m, hm, hnil⟩ := List.any_eq_true.mp hany
        refine hd.accepts_union.mpr ⟨m, hm, ?_⟩
        cases m <;> first | exact ha | cases hnil
      · cases hy
    · cases hy
  next ds _ =>
    obtain ⟨m, hm, hy⟩ := List.mem_map.mp (toUnion_yes hy)
    exact hd.accepts_union.mpr ⟨m, hm, hrec s m hs (hd.members hm) hy ha⟩
  next ss _ _ =>
    obtain ⟨m, hm, ha⟩ := hs.accepts_union.mp ha
    exact hrec m d (hs.members hm) hd (ofUnion_yes hy _ (List.mem_map_of_mem hm)) ha
  next hnil hsu hdu =>
    have hflat : ∀ {t : CheckTy}, t.Anchored tbl → t.unliteral = t → (∀ ms, t ≠ .union ms) →
        isFlat t = true := by
      intro t ht hl hu
      rw [isFlat, ht.safe, Bool.true_and]
      cases t with
      | any | var => cases ht.fixed
      | never | enumVariant => cases ht.safe
      | union ms => exact absurd rfl (hu ms)
      | literal l => cases l <;> cases hl
      | _ => rfl
    obtain ⟨ty, hty⟩ := Option.isSome_iff_exists.mp hd.typed
    refine flatRules_yes (hflat hs hls fun ms h => ?_) (hflat hd hld fun ms h => ?_) ?_ hy hty ha
    · exact hsu ms h
    · exact hdu ms h
    · cases s <;> first | rfl | exact absurd rfl hnil

theorem assignableDepth_yes (hs : s.Anchored tbl) (hd : d.Anchored tbl)
    (hy : assignableDepth tbl conf left s d = .yes) (ha : s.Accepts tbl h v) :
    d.Accepts tbl h v := by
  induction left generalizing s d with
  | zero => cases hy
  | succ left ih =>
    rw [assignableDepth, assignableStep_rules hs.fixed hd.fixed (by rintro rfl; cases hs.safe)
      (by rintro rfl; cases hd.safe)] at hy
    have hidem : ∀ t : CheckTy, t.unliteral.unliteral = t.unliteral := by
      intro t
      cases t with
      | literal l => cases l <;> rfl
      | _ => rfl
    exact (accepts_unliteral d).mp (rules_yes (fun s d hs hd hy ha => ih hs hd hy ha) hs.unliteral
      hd.unliteral (hidem s) (hidem d) hy ((accepts_unliteral s).mpr ha))

end Sound

end CheckTy

open CheckTy

/-- A contract left out at an elidable type, for a source whose own contract fixes its kind
and an assignable verdict, would have passed: what the source's check accepted, the
destination's accepts, after any mutation in place and in any environment. -/
theorem elidable_yes_sound {D A E : Type} (tbl : Table) (n : Nat) (s d : CheckTy) (S T : Ty)
    (h h' : Heap D A) (env env' : Env D A E) (v : Val D A)
    (hs : Normal s) (hd : Normal d) (hes : anchorsBindingKind s = true) (hed : elideSafe d = true)
    (hS : s.toType tbl = some S) (hT : d.toType tbl = some T)
    (hy : assignable tbl n s d = .yes) (hk : h.SameKinds h') :
    (checkType h S v = true → checkType h' T v = true) ∧
      (checkTypeEnv h env S v = .ok true → checkTypeEnv h' env' T v = .ok true) := by
  simp only [anchorsBindingKind, Bool.and_eq_true, Bool.not_eq_true'] at hes
  have hsound : checkType h S v = true → checkType h' T v = true := by
    intro hc
    rw [← kindOnly_stable hk (elideSafe_kindOnly d hed hT)]
    by_cases hg : d.isGradual = true
    · cases d <;> first | (cases hg; done) | (cases hT; rfl)
    · have hsa : s.Anchored tbl := ⟨hs, hes.1, hes.2, by rw [hS]; rfl⟩
      have hda : d.Anchored tbl := ⟨hd, hed, by simpa using hg, by rw [hT]; rfl⟩
      exact (Accepts.iff hT).mp (assignableDepth_yes hsa hda hy ((Accepts.iff hS).mpr hc))
  refine ⟨hsound, fun hc => ?_⟩
  rw [kindOnly_env env (elideSafe_kindOnly s hes.1 hS), Except.ok.injEq] at hc
  rw [kindOnly_env env' (elideSafe_kindOnly d hed hT), hsound hc]

/-- An array that was checked as an optional array, passed on as one after it was emptied. -/
theorem elidable_yes_sound_array :
    let h : Heap Unit Unit := fun _ => .array [.nil]
    let h' : Heap Unit Unit := fun _ => .array []
    let env : Env Unit Unit Unit := fun _ => none
    let v : Val Unit Unit := .other (.cell ())
    (checkType h (.array .any) v = true → checkType h' (.union .nil (.array .any)) v = true) ∧
      (checkTypeEnv h env (.array .any) v = .ok true →
        checkTypeEnv h' env (.union .nil (.array .any)) v = .ok true) :=
  elidable_yes_sound ⟨[], [], [], fun _ => none⟩ 0 (.array .any) (.union [.nil, .array .any])
    (.array .any) (.union .nil (.array .any)) _ _ _ _ _ (.array .any)
    (.union rfl (by
      intro m hm
      simp only [List.mem_cons, List.not_mem_nil, or_false] at hm
      obtain rfl | rfl := hm
      · exact .nil
      · exact .array .any))
    rfl rfl rfl rfl rfl (fun _ => rfl)

end AScript.Check
