import AScript.Check.Denotation

namespace AScript.Check

open AScript.Lib AScript.Syntax AScript.Runtime

namespace Table

variable (tbl : Table)

/-- `ancestry`: a class and its ancestors, as far as they are new. -/
def ancestryFrom : Nat → List Nat → Nat → List Nat
  | 0, _, _ => []
  | fuel + 1, chain, c =>
    if c ∈ chain then []
    else
      c :: match tbl.parent c with
        | none => []
        | some p => ancestryFrom fuel (c :: chain) p

def ancestry (c : Nat) : List Nat := tbl.ancestryFrom (tbl.classFuel + 1) [] c

def Declared (c : Nat) : Prop := tbl.classByName (tbl.className c) = some c

/-- Superclasses are found by name. -/
def ParentsDeclared : Prop := ∀ c p, tbl.parent c = some p → tbl.Declared p

def classRef (c : Nat) : ClassRef := ⟨tbl.className c, (tbl.ancestry c).tail.map tbl.className⟩

variable {tbl}

theorem isSubclassFrom_iff (hv : a ∉ visited) :
    tbl.isSubclassFrom fuel visited c a = true ↔ a ∈ tbl.ancestryFrom fuel visited c := by
  induction fuel generalizing visited c with
  | zero => simp [isSubclassFrom, ancestryFrom]
  | succ fuel ih =>
    rw [isSubclassFrom, ancestryFrom]
    by_cases hca : c = a
    · subst hca
      simp [hv]
    · rw [if_neg hca]
      split
      · simp
      · cases tbl.parent c with
        | none => simp [Ne.symm hca]
        | some p =>
          simp only [List.mem_cons, Ne.symm hca, false_or]
          exact ih (by simp [hv, Ne.symm hca])

theorem isSubclass_iff : tbl.isSubclass c a = true ↔ a ∈ tbl.ancestry c :=
  isSubclassFrom_iff (List.not_mem_nil)

theorem ancestryFrom_declared (hp : tbl.ParentsDeclared) (hc : tbl.Declared c)
    (ha : a ∈ tbl.ancestryFrom fuel visited c) : tbl.Declared a := by
  induction fuel generalizing visited c with
  | zero => cases ha
  | succ fuel ih =>
    rw [ancestryFrom] at ha
    split at ha
    · cases ha
    · cases ha with
      | head => exact hc
      | tail _ ha =>
        split at ha
        · cases ha
        next p hpc => exact ih (hp c p hpc) ha

theorem ancestry_cons (c : Nat) : tbl.ancestry c = c :: (tbl.ancestry c).tail := rfl

theorem classRef_names (hp : tbl.ParentsDeclared) (hc : tbl.Declared c) (hd : tbl.Declared d) :
    tbl.className d ∈ (tbl.classRef c).name :: (tbl.classRef c).superclasses ↔
      tbl.isSubclass c d = true := by
  have hnames : (tbl.classRef c).name :: (tbl.classRef c).superclasses =
      (tbl.ancestry c).map tbl.className := by
    rw [ancestry_cons]
    rfl
  rw [hnames, isSubclass_iff, List.mem_map]
  constructor
  · rintro ⟨a, ha, hn⟩
    have hda : tbl.Declared a := ancestryFrom_declared hp hc ha
    rw [Declared, hn, hd] at hda
    cases hda
    exact ha
  · exact fun h => ⟨d, h, rfl⟩

end Table

inductive Kind
  | int
  | float
  | string
  | bool
  | nil
  | object
  | array
  | map
  | instance : Kind
  | other
  deriving DecidableEq

namespace Kind

def all : List Kind :=
  [.int, .float, .string, .bool, .nil, .object, .array, .map, .instance, .other]

def ofPrim : Prim → List Kind
  | .number => [.int, .float]
  | .int => [.int]
  | .float => [.float]
  | .string => [.string]
  | .bool => [.bool]
  | .object => [.object]
  | .error => [.object, .nil]
  | .bytes | .regex | .fn => [.other]

def shown : Prim → Kind
  | .number | .int => .int
  | .float => .float
  | .string => .string
  | .bool => .bool
  | .object => .object
  | .error => .nil
  | .bytes | .regex | .fn => .other

end Kind

namespace CheckTy

mutual

def kinds : CheckTy → List Kind
  | .prim p => Kind.ofPrim p
  | .nil => [.nil]
  | .array _ | .tuple _ | .result _ => [.array]
  | .map _ _ => [.map]
  | .class _ => [.instance]
  | .union ms => kindsAll ms
  | _ => Kind.all

def kindsAll : List CheckTy → List Kind
  | [] => []
  | m :: ms => kinds m ++ kindsAll ms

end

theorem mem_kindsAll : k ∈ kindsAll ms ↔ ∃ m ∈ ms, k ∈ kinds m := by
  induction ms with
  | nil => simp [kindsAll]
  | cons m ms ih => simp [kindsAll, ih]

variable (tbl : Table)

/-- The types of data: any, scalars, nil, error, object, arrays, maps, tuples, results,
declared classes and unions of these. -/
inductive Data : CheckTy → Prop
  | any : Data .any
  | number : Data (.prim .number)
  | int : Data (.prim .int)
  | float : Data (.prim .float)
  | string : Data (.prim .string)
  | bool : Data (.prim .bool)
  | object : Data (.prim .object)
  | error : Data (.prim .error)
  | nil : Data .nil
  | array : Data t → Data (.array t)
  | map : Data k → Data t → Data (.map k t)
  | tuple : (∀ t ∈ ts, Data t) → Data (.tuple ts)
  | result : Data t → Data (.result t)
  | class : tbl.Declared c → Data (.class c)
  | union : ms ≠ [] → (∀ m ∈ ms, Data m) → Data (.union ms)

variable {tbl} {D A : Type} {h : Heap D A} {v : Val D A} {t s d : CheckTy}

theorem toTypes_forall₂ (ht : toTypes tbl ts = some tys) :
    List.Forall₂ (fun t ty => toType tbl t = some ty) ts tys := by
  induction ts generalizing tys with
  | nil =>
    cases ht
    exact .nil
  | cons t ts ih =>
    rw [toTypes] at ht
    obtain ⟨ty, hty, ht⟩ := Option.bind_eq_some_iff.mp ht
    obtain ⟨tys', htys, rfl⟩ := Option.map_eq_some_iff.mp ht
    exact .cons hty (ih htys)

theorem Data.typed (ht : t.Data tbl) : (t.toType tbl).isSome := by
  induction ht with
  | array _ ih | result _ ih =>
    rw [toType, Option.isSome_map]
    exact ih
  | map _ _ ihk iht =>
    obtain ⟨k, hk⟩ := Option.isSome_iff_exists.mp ihk
    rw [toType, hk, Option.bind_some, Option.isSome_map]
    exact iht
  | tuple _ ih =>
    rw [toType, Option.isSome_map]
    exact toTypes_isSome.mpr ih
  | union hne _ ih =>
    obtain ⟨ts, hts⟩ := Option.isSome_iff_exists.mp (toTypes_isSome.mpr ih)
    rw [toType, hts, Option.bind_some, unionOf_isSome]
    rintro rfl
    cases toTypes_forall₂ hts
    exact hne rfl
  | _ => rfl

theorem accepts_any : CheckTy.any.Accepts tbl h v := ⟨.any, rfl, rfl⟩

theorem accepts_array (ht : (t.toType tbl).isSome) :
    (CheckTy.array t).Accepts tbl h v ↔
      ∃ items, h.cell? v = some (.array items) ∧ ∀ x ∈ items, t.Accepts tbl h x := by
  obtain ⟨ty, hty⟩ := Option.isSome_iff_exists.mp ht
  have hty' : (CheckTy.array t).toType tbl = some (.array ty) := by rw [toType, hty]; rfl
  rw [Accepts.iff hty', checkType]
  simp only [Accepts.iff hty]
  cases hv : h.cell? v with
  | none => simp
  | some c => cases c <;> simp

theorem checkTypes_iff (ht : List.Forall₂ (fun t ty => toType tbl t = some ty) ts tys)
    {items : List (Val D A)} :
    checkTypes h tys items = true ↔ List.Forall₂ (fun t x => t.Accepts tbl h x) ts items := by
  induction ht generalizing items with
  | nil => cases items <;> simp [checkTypes]
  | cons hty _ ih => cases items <;> simp [checkTypes, ih, Accepts.iff hty]

theorem accepts_tuple (ht : (toTypes tbl ts).isSome) :
    (CheckTy.tuple ts).Accepts tbl h v ↔
      ∃ items, h.cell? v = some (.array items) ∧
        List.Forall₂ (fun t x => t.Accepts tbl h x) ts items := by
  obtain ⟨tys, htys⟩ := Option.isSome_iff_exists.mp ht
  have hty' : (CheckTy.tuple ts).toType tbl = some (.tuple tys) := by rw [toType, htys]; rfl
  rw [Accepts.iff hty', checkType]
  simp only [← checkTypes_iff (toTypes_forall₂ htys)]
  cases hv : h.cell? v with
  | none => simp
  | some c => cases c <;> simp

theorem accepts_nil : CheckTy.nil.Accepts tbl h v ↔ v = .nil := by
  rw [Accepts.iff rfl, checkType]
  cases v <;> simp [isNil]

theorem accepts_error :
    (CheckTy.prim .error).Accepts tbl h v ↔ isObject h v = true ∨ v = .nil := by
  rw [Accepts.iff rfl, Prim.toType, checkType, Bool.or_eq_true]
  cases v <;> simp [isNil]

theorem accepts_result (ht : (t.toType tbl).isSome) :
    (CheckTy.result t).Accepts tbl h v ↔
      ∃ x y, h.cell? v = some (.array [x, y]) ∧ (t.Accepts tbl h x ∨ x = .nil) ∧
        (CheckTy.prim .error).Accepts tbl h y := by
  obtain ⟨ty, hty⟩ := Option.isSome_iff_exists.mp ht
  have hty' : (CheckTy.result t).toType tbl = some (.result ty) := by rw [toType, hty]; rfl
  have hnil : ∀ x : Val D A, isNil x = true ↔ x = .nil := by
    intro x
    cases x <;> simp [isNil]
  rw [Accepts.iff hty', checkType]
  simp only [Accepts.iff hty, accepts_error]
  split
  next x y hv =>
    simp only [Bool.and_eq_true, Bool.or_eq_true, hnil, hv, Option.some.injEq, Cell.array.injEq,
      List.cons.injEq, and_true]
    constructor
    · exact fun hxy => ⟨x, y, ⟨rfl, rfl⟩, hxy⟩
    · rintro ⟨x', y', ⟨rfl, rfl⟩, hxy⟩
      exact hxy
  next hne =>
    simp only [Bool.false_eq_true, false_iff]
    rintro ⟨x, y, hv, -⟩
    exact hne x y hv

theorem accepts_map (hk : (k.toType tbl).isSome) (ht : (t.toType tbl).isSome) :
    (CheckTy.map k t).Accepts tbl h v ↔
      ∃ m, h.cell? v = some (.map m) ∧
        ∀ e ∈ m.entries, k.Accepts tbl h e.1.toValue ∧ t.Accepts tbl h e.2 := by
  obtain ⟨kty, hkty⟩ := Option.isSome_iff_exists.mp hk
  obtain ⟨ty, hty⟩ := Option.isSome_iff_exists.mp ht
  have hty' : (CheckTy.map k t).toType tbl = some (.map kty ty) := by
    rw [toType, hkty, hty]
    rfl
  rw [Accepts.iff hty', checkType]
  simp only [Accepts.iff hkty, Accepts.iff hty]
  cases hv : h.cell? v with
  | none => simp
  | some c => cases c <;> simp

theorem accepts_class :
    (CheckTy.class c).Accepts tbl h v ↔ isNamed h (tbl.className c) v = true := by
  have hty : (CheckTy.class c).toType tbl = some (.named (tbl.className c)) := rfl
  rw [Accepts.iff hty, checkType]

theorem accepts_prim {p : Prim} :
    (CheckTy.prim p).Accepts tbl h v ↔ checkType h p.toType v = true :=
  Accepts.iff rfl

theorem Data.accepts_union (ht : (CheckTy.union ms).Data tbl) :
    (CheckTy.union ms).Accepts tbl h v ↔ ∃ m ∈ ms, m.Accepts tbl h v := by
  cases ht with
  | union _ hms => exact CheckTy.accepts_union fun m hm => (hms m hm).typed

end CheckTy

inductive Scalar
  | nil
  | bool
  | int
  | float
  | string

def Scalar.toKey : Scalar → MapKey D
  | .nil => .nil
  | .bool => .bool true
  | .int => .int .zero
  | .float => .num 0x3fe0000000000000
  | .string => .str ""

inductive Tree
  | leaf : Scalar → Tree
  | future
  | object
  | instance : ClassRef → Tree
  | array : List Tree → Tree
  | emptyMap
  | singleton : Scalar → Tree → Tree

namespace Tree

def toVal : Tree → Val D Tree
  | .leaf k => k.toKey.toValue
  | .future => .other (.code .future)
  | x => .other (.cell x)

def heap : Heap D Tree
  | .array xs => .array (xs.map toVal)
  | .instance cls => .instance cls .empty
  | .emptyMap => .map .empty
  | .singleton k x => .map ⟨[(k.toKey, x.toVal)], by simp⟩
  | .leaf _ | .future | .object => .object .empty

def kind : Tree → Kind
  | .leaf .nil => .nil
  | .leaf .bool => .bool
  | .leaf .int => .int
  | .leaf .float => .float
  | .leaf .string => .string
  | .future => .other
  | .object => .object
  | .instance _ => .instance
  | .array _ => .array
  | .emptyMap | .singleton _ _ => .map

def sample : Kind → Tree
  | .nil => .leaf .nil
  | .bool => .leaf .bool
  | .int => .leaf .int
  | .float => .leaf .float
  | .string => .leaf .string
  | .other => .future
  | .object => .object
  | .instance => .instance ⟨"", []⟩
  | .array => .array []
  | .map => .emptyMap

@[simp] theorem kind_sample (k : Kind) : (sample k).kind = k := by cases k <;> rfl

theorem toVal_eq_nil {x : Tree} : (x.toVal : Val D Tree) = .nil ↔ x.kind = .nil := by
  cases x with
  | leaf k => cases k <;> simp [toVal, kind, Scalar.toKey, MapKey.toValue]
  | _ => simp [toVal, kind]

theorem isObject_toVal {x : Tree} :
    isObject (heap : Heap D Tree) x.toVal = true ↔ x.kind = .object := by
  cases x with
  | leaf k => cases k <;> simp [toVal, kind, Scalar.toKey, MapKey.toValue, isObject, Heap.cell?]
  | _ => simp [toVal, kind, isObject, Heap.cell?, heap]

theorem cell_array {x : Tree} {items : List (Val D Tree)} :
    (heap : Heap D Tree).cell? x.toVal = some (.array items) ↔
      ∃ xs, x = .array xs ∧ items = xs.map toVal := by
  cases x with
  | leaf k => cases k <;> simp [toVal, Scalar.toKey, MapKey.toValue, Heap.cell?]
  | _ => simp [toVal, Heap.cell?, heap, eq_comm]

end Tree

namespace CheckTy

variable (tbl : Table) (D : Type)

def Fits (t : CheckTy) (x : Tree) : Prop := t.Accepts tbl (Tree.heap : Heap D Tree) x.toVal

variable {tbl D} {x y : Tree} {t k : CheckTy} {ts ms : List CheckTy}

theorem fits_any : Fits tbl D .any x := accepts_any

theorem fits_nil : Fits tbl D .nil x ↔ x.kind = .nil := by
  rw [Fits, accepts_nil, Tree.toVal_eq_nil]

theorem fits_prim {p : Prim} (hp : (CheckTy.prim p).Data tbl) :
    Fits tbl D (.prim p) x ↔ x.kind ∈ Kind.ofPrim p := by
  cases hp with
  | error =>
    rw [Fits, accepts_error, Tree.toVal_eq_nil, Tree.isObject_toVal]
    simp [Kind.ofPrim]
  | object =>
    rw [Fits, accepts_prim, Prim.toType, checkType, Tree.isObject_toVal]
    simp [Kind.ofPrim]
  | _ =>
    rw [Fits, accepts_prim, Prim.toType]
    cases x with
    | leaf k =>
      cases k <;> simp [Tree.toVal, Scalar.toKey, MapKey.toValue, checkType, isNumber, Tree.kind,
        Kind.ofPrim]
    | _ => simp [Tree.toVal, checkType, isNumber, Tree.kind, Kind.ofPrim]

theorem fits_array (ht : t.Data tbl) :
    Fits tbl D (.array t) x ↔ ∃ xs, x = .array xs ∧ ∀ y ∈ xs, Fits tbl D t y := by
  rw [Fits, accepts_array ht.typed]
  constructor
  · rintro ⟨items, hx, hall⟩
    obtain ⟨xs, rfl, rfl⟩ := Tree.cell_array.mp hx
    exact ⟨xs, rfl, fun y hy => hall _ (List.mem_map_of_mem hy)⟩
  · rintro ⟨xs, rfl, hall⟩
    refine ⟨_, Tree.cell_array.mpr ⟨xs, rfl, rfl⟩, fun v hv => ?_⟩
    obtain ⟨y, hy, rfl⟩ := List.mem_map.mp hv
    exact hall y hy

theorem fits_tuple (ht : ∀ t ∈ ts, t.Data tbl) :
    Fits tbl D (.tuple ts) x ↔ ∃ xs, x = .array xs ∧ List.Forall₂ (Fits tbl D) ts xs := by
  rw [Fits, accepts_tuple (toTypes_isSome.mpr fun t h => (ht t h).typed)]
  constructor
  · rintro ⟨items, hx, hall⟩
    obtain ⟨xs, rfl, rfl⟩ := Tree.cell_array.mp hx
    rw [List.forall₂_map_right_iff] at hall
    exact ⟨xs, rfl, hall⟩
  · rintro ⟨xs, rfl, hall⟩
    exact ⟨_, Tree.cell_array.mpr ⟨xs, rfl, rfl⟩, List.forall₂_map_right_iff.mpr hall⟩

theorem fits_result (ht : t.Data tbl) :
    Fits tbl D (.result t) x ↔ ∃ y z, x = .array [y, z] ∧
      (Fits tbl D t y ∨ y.kind = .nil) ∧ (z.kind = .object ∨ z.kind = .nil) := by
  rw [Fits, accepts_result ht.typed]
  simp only [accepts_error]
  constructor
  · rintro ⟨v, w, hx, hv, hw⟩
    obtain ⟨xs, rfl, hxs⟩ := Tree.cell_array.mp hx
    obtain ⟨y, xs', rfl, rfl, hxs'⟩ := List.map_eq_cons_iff.mp hxs.symm
    obtain ⟨z, rfl, rfl⟩ := List.map_eq_singleton_iff.mp hxs'
    rw [Tree.toVal_eq_nil] at hv hw
    rw [Tree.isObject_toVal] at hw
    exact ⟨y, z, rfl, hv, hw⟩
  · rintro ⟨y, z, rfl, hy, hz⟩
    refine ⟨y.toVal, z.toVal, Tree.cell_array.mpr ⟨[y, z], rfl, rfl⟩, ?_, ?_⟩
    · rwa [Tree.toVal_eq_nil]
    · rwa [Tree.toVal_eq_nil, Tree.isObject_toVal]

theorem fits_map (hk : k.Data tbl) (ht : t.Data tbl) :
    Fits tbl D (.map k t) x ↔ x = .emptyMap ∨
      ∃ key y, x = .singleton key y ∧ Fits tbl D k (.leaf key) ∧ Fits tbl D t y := by
  rw [Fits, accepts_map hk.typed ht.typed]
  cases x with
  | leaf key => cases key <;> simp [Tree.toVal, Scalar.toKey, MapKey.toValue, Heap.cell?]
  | singleton key y =>
    simp only [Tree.toVal, Heap.cell?, Tree.heap, Fits]
    simp
  | _ => simp [Tree.toVal, Heap.cell?, Tree.heap, IndexMap.empty]

theorem fits_class : Fits tbl D (.class c) x ↔
    ∃ cls, x = .instance cls ∧ tbl.className c ∈ cls.name :: cls.superclasses := by
  rw [Fits, accepts_class]
  cases x with
  | leaf key => cases key <;> simp [Tree.toVal, Scalar.toKey, MapKey.toValue, isNamed, Heap.cell?]
  | «instance» cls => simp [Tree.toVal, isNamed, Heap.cell?, Tree.heap]
  | _ => simp [Tree.toVal, isNamed, Heap.cell?, Tree.heap]

theorem fits_union (ht : (CheckTy.union ms).Data tbl) :
    Fits tbl D (.union ms) x ↔ ∃ m ∈ ms, Fits tbl D m x :=
  ht.accepts_union

end CheckTy
end AScript.Check
