import AScript.Check.CheckTy
import AScript.Runtime.Contract

namespace AScript.Check

open AScript.Syntax AScript.Runtime

def Prim.toType : Prim → Ty
  | .number => .number
  | .int => .int
  | .float => .float
  | .string => .string
  | .bool => .bool
  | .bytes => .named "bytes"
  | .object => .object
  | .regex => .named "regex"
  | .error => .error
  | .fn => .fn

def LitVal.toType : LitVal → Ty
  | .number => .number
  | .string => .string
  | .bool => .bool
  | .nil => .nil

namespace Table

variable (tbl : Table)

def className (c : Nat) : String := (tbl.classes[c]?.map (·.name)).getD ""

def enumName (e : Nat) : String := (tbl.enums[e]?).getD ""

def interfaceName (i : Nat) : String := (tbl.interfaces[i]?.map (·.name)).getD ""

end Table

def unionOf : List Ty → Option Ty
  | [] => none
  | [t] => some t
  | t :: ts => (unionOf ts).map (.union t)

namespace CheckTy

variable (tbl : Table)

mutual

/-- The `ast::Type` of a checker type; the bottom type and a union of nothing have none. -/
def toType : CheckTy → Option Ty
  | .any => some .any
  | .never => none
  | .prim p => some p.toType
  | .nil => some .nil
  | .array t => (toType t).map .array
  | .map k v => (toType k).bind fun k => (toType v).map (.map k)
  | .tuple ts => (toTypes ts).map .tuple
  | .result t => (toType t).map .result
  | .future t => (toType t).map .future
  | .union ms => (toTypes ms).bind unionOf
  | .class c | .classApp c _ => some (.named (tbl.className c))
  | .enum e | .enumVariant e _ | .enumApp e _ => some (.named (tbl.enumName e))
  | .literal l => some l.toType
  | .var _ _ => some (.param "")
  | .fnSig ps r => (toTypes ps).bind fun ps => (toType r).map (.fnSig ps)
  | .interface i => some (.named (tbl.interfaceName i))

def toTypes : List CheckTy → Option (List Ty)
  | [] => some []
  | t :: ts => (toType t).bind fun t => (toTypes ts).map (t :: ·)

end

def Accepts (h : Heap D A) (t : CheckTy) (v : Val D A) : Prop :=
  ∃ ty, t.toType tbl = some ty ∧ checkType h ty v = true

variable {tbl : Table} {D A : Type} {h : Heap D A} {v : Val D A}

theorem Accepts.iff {t : CheckTy} (ht : t.toType tbl = some ty) :
    t.Accepts tbl h v ↔ checkType h ty v = true := by
  refine ⟨fun ⟨ty', ht', hc⟩ => ?_, fun hc => ⟨ty, ht, hc⟩⟩
  cases ht.symm.trans ht'
  exact hc

theorem unionOf_checkType {ts : List Ty} (hu : unionOf ts = some ty) :
    checkType h ty v = ts.any (checkType h · v) := by
  induction ts generalizing ty with
  | nil => cases hu
  | cons t ts ih =>
    cases ts with
    | nil =>
      cases hu
      simp
    | cons t' ts =>
      obtain ⟨ty', hty', rfl⟩ := Option.map_eq_some_iff.mp hu
      simp only [checkType, ih hty', List.any_cons]

theorem toTypes_any {ms : List CheckTy} (ht : toTypes tbl ms = some ts) :
    ts.any (checkType h · v) = true ↔ ∃ m ∈ ms, m.Accepts tbl h v := by
  induction ms generalizing ts with
  | nil =>
    cases ht
    simp
  | cons m ms ih =>
    rw [toTypes] at ht
    obtain ⟨t, hm, ht⟩ := Option.bind_eq_some_iff.mp ht
    obtain ⟨ts', hms, rfl⟩ := Option.map_eq_some_iff.mp ht
    rw [List.any_cons, Bool.or_eq_true, ih hms]
    constructor
    · rintro (hc | ⟨m', hm', ha⟩)
      · exact ⟨m, List.mem_cons_self, t, hm, hc⟩
      · exact ⟨m', List.mem_cons_of_mem _ hm', ha⟩
    · rintro ⟨m', hm', ha⟩
      cases hm' with
      | head =>
        obtain ⟨ty, hty, hc⟩ := ha
        rw [hm] at hty
        cases hty
        exact .inl hc
      | tail _ hm' => exact .inr ⟨m', hm', ha⟩

theorem toTypes_isSome {ms : List CheckTy} :
    (toTypes tbl ms).isSome ↔ ∀ m ∈ ms, (m.toType tbl).isSome := by
  induction ms with
  | nil => simp [toTypes]
  | cons m ms ih =>
    rw [toTypes, List.forall_mem_cons, ← ih]
    cases toType tbl m <;> cases toTypes tbl ms <;> simp

theorem unionOf_isSome {ts : List Ty} : (unionOf ts).isSome ↔ ts ≠ [] := by
  induction ts with
  | nil => simp [unionOf]
  | cons t ts ih =>
    cases ts with
    | nil => simp [unionOf]
    | cons t' ts => simpa [unionOf] using ih

theorem accepts_union (hs : ∀ m ∈ ms, (m.toType tbl).isSome) :
    (CheckTy.union ms).Accepts tbl h v ↔ ∃ m ∈ ms, m.Accepts tbl h v := by
  obtain ⟨ts, hts⟩ := Option.isSome_iff_exists.mp (toTypes_isSome.mpr hs)
  rw [← toTypes_any hts]
  constructor
  · rintro ⟨ty, hty, hc⟩
    rw [toType, hts, Option.bind_some] at hty
    rwa [← unionOf_checkType hty]
  · intro hany
    have hne : ts ≠ [] := by
      rintro rfl
      cases hany
    obtain ⟨ty, hty⟩ := Option.isSome_iff_exists.mp (unionOf_isSome.mpr hne)
    exact ⟨ty, by rw [toType, hts, Option.bind_some, hty], by rwa [unionOf_checkType hty]⟩

/-- A union that `normalize` leaves as it is. -/
def NormalUnion (ms : List CheckTy) : Prop := normalize (.union ms) = .union ms

def isMember : CheckTy → Bool
  | .any | .never | .union _ | .literal _ | .enumVariant _ _ | .var _ _ => false
  | _ => true

mutual

theorem mem_flatten (t : CheckTy) (hm : m ∈ flatten t) :
    m.isMember = true ∨ m.isGradual = true := by
  cases t with
  | union ms => exact mem_flattenAll ms (by rwa [flatten] at hm)
  | literal l =>
    rw [flatten, List.mem_singleton] at hm
    subst hm
    cases l <;> exact .inl rfl
  | never => simp [flatten] at hm
  | any | var =>
    simp only [flatten, List.mem_singleton] at hm
    subst hm
    exact .inr rfl
  | _ =>
    simp only [flatten, List.mem_singleton] at hm
    subst hm
    exact .inl rfl

theorem mem_flattenAll (ms : List CheckTy) (hm : m ∈ flattenAll ms) :
    m.isMember = true ∨ m.isGradual = true := by
  cases ms with
  | nil => simp [flattenAll] at hm
  | cons t ts =>
    rw [flattenAll, List.mem_append] at hm
    cases hm with
    | inl hm => exact mem_flattenAll ts hm
    | inr hm => exact mem_flatten t hm

end

theorem mem_dedupFrom {ts : List CheckTy} (hm : m ∈ dedupFrom t ts) : m ∈ t :: ts := by
  induction ts generalizing t with
  | nil => exact hm
  | cons u ts ih =>
    rw [dedupFrom] at hm
    split at hm
    · have := ih hm
      simp only [List.mem_cons] at this ⊢
      tauto
    · cases hm with
      | head => exact List.mem_cons_self
      | tail _ hm => exact List.mem_cons_of_mem _ (ih hm)

theorem mem_dedup {ts : List CheckTy} (hm : m ∈ dedup ts) : m ∈ ts := by
  cases ts with
  | nil => cases hm
  | cons t ts => exact mem_dedupFrom hm

theorem NormalUnion.members (hn : NormalUnion ms) :
    (∀ m ∈ ms, m.isMember = true) ∧ 2 ≤ ms.length ∧ ms.length ≤ unionWidthCap := by
  simp only [NormalUnion, normalize] at hn
  split at hn
  · cases hn
  next hg =>
    have hmem : ∀ m ∈ dedup ((flattenAll ms).insertionSort fun a b => memberLe a b), m.isMember =
      true := by
      intro m hm
      have hm := (List.perm_insertionSort _ _).mem_iff.mp (mem_dedup hm)
      refine (mem_flattenAll ms hm).resolve_right fun hgm => hg ?_
      exact List.any_eq_true.mpr ⟨m, hm, hgm⟩
    split at hn
    · cases hn
    next t ht =>
      subst hn
      rw [ht] at hmem
      cases hmem (.union ms) List.mem_cons_self
    next ts h1 h2 =>
      split at hn
      · cases hn
      next hlen =>
        have hms := CheckTy.union.inj hn
        rw [hms] at hmem h1 h2 hlen
        refine ⟨hmem, ?_, by omega⟩
        match ms, h1, h2 with
        | [], h1, _ => exact absurd rfl h1
        | [t], _, h2 => exact absurd rfl (h2 t)
        | _ :: _ :: _, _, _ => simp

/-- Every union in the type is normal. -/
inductive Normal : CheckTy → Prop
  | any : Normal .any
  | never : Normal .never
  | prim : Normal (.prim p)
  | nil : Normal .nil
  | array : Normal t → Normal (.array t)
  | map : Normal k → Normal t → Normal (.map k t)
  | tuple : (∀ t ∈ ts, Normal t) → Normal (.tuple ts)
  | result : Normal t → Normal (.result t)
  | future : Normal t → Normal (.future t)
  | union : NormalUnion ms → (∀ m ∈ ms, Normal m) → Normal (.union ms)
  | class : Normal (.class c)
  | enum : Normal (.enum e)
  | enumVariant : Normal (.enumVariant e name)
  | literal : Normal (.literal l)
  | var : Normal (.var i b)
  | fnSig : (∀ p ∈ ps, Normal p) → Normal r → Normal (.fnSig ps r)
  | classApp : (∀ t ∈ ts, Normal t) → Normal (.classApp c ts)
  | enumApp : (∀ t ∈ ts, Normal t) → Normal (.enumApp e ts)
  | interface : Normal (.interface i)

end CheckTy
end AScript.Check
