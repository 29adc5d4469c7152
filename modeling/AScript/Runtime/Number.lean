import AScript.Lib.Float64
import AScript.Lib.IndexMap

universe u v w

namespace AScript.Runtime

open AScript.Lib

/-- A runtime value: its hashable kinds, and every other kind as `other`. Decimals are
a parameter, identified up to their own equality. -/
inductive Value (D : Type u) (O : Type v)
  | nil
  | bool : Bool → Value D O
  | int : I64 → Value D O
  | float : F64 → Value D O
  | decimal : D → Value D O
  | str : String → Value D O
  | other : O → Value D O
  deriving DecidableEq

/-- `int_eq_float`. -/
def intEqFloat (i : I64) (f : F64) : Bool :=
  f.isFinite && f.decode.fract.beq F64.zero.decode && F64.i64Min.le f && f.lt F64.i64Sup &&
    f.toI64 == i

/-- `int_cmp_float`. -/
def intCmpFloat (i : I64) (f : F64) : Option Ordering :=
  if f.isNan then none
  else if f.beq F64.infinity then some .lt
  else if f.beq F64.negInfinity then some .gt
  else if f.lt F64.i64Min then some .gt
  else if F64.i64Sup.le f then some .lt
  else
    match compare i.val f.decode.trunc.toI64.val with
    | .eq =>
      if F64.zero.decode.lt f.decode.fract then some .lt
      else if f.decode.fract.lt F64.zero.decode then some .gt
      else some .eq
    | o => some o

/-- `PartialEq for Value`, with the other kinds' equality a parameter. -/
def Value.eq [DecidableEq D] [BEq O] : Value D O → Value D O → Bool
  | .nil, .nil => true
  | .bool a, .bool b => a == b
  | .int a, .int b => a == b
  | .float a, .float b => a.beq b
  | .int i, .float f => intEqFloat i f
  | .float f, .int i => intEqFloat i f
  | .decimal a, .decimal b => a == b
  | .str a, .str b => a == b
  | .other a, .other b => a == b
  | _, _ => false

inductive MapKey (D : Type u)
  | nil
  | bool : Bool → MapKey D
  | int : I64 → MapKey D
  | num : BitVec 64 → MapKey D
  | str : String → MapKey D
  | decimal : D → MapKey D
  deriving DecidableEq

namespace MapKey

/-- The float case of `MapKey::from_value`. -/
def ofFloat (f : F64) : MapKey D :=
  if f.decode.fract.beq F64.zero.decode && f.isFinite && F64.i64Min.le f && f.lt F64.i64Sup then
    .int f.toI64
  else .num (if f.isNan then F64.canonicalNan.bits else f.bits)

def fromValue : Value D O → Option (MapKey D)
  | .nil => some .nil
  | .bool b => some (.bool b)
  | .int i => some (.int i)
  | .float f => some (ofFloat f)
  | .str s => some (.str s)
  | .decimal d => some (.decimal d)
  | .other _ => none

def toValue : MapKey D → Value D O
  | .nil => .nil
  | .bool b => .bool b
  | .int i => .int i
  | .num bits => .float ⟨bits⟩
  | .str s => .str s
  | .decimal d => .decimal d

end MapKey

/-- The numeric values. -/
inductive Num
  | int : I64 → Num
  | float : F64 → Num

def Num.toValue : Num → Value D O
  | .int i => .int i
  | .float f => .float f

/-- The exact number, a nan having none. -/
def Num.value : Num → Option ExtRat
  | .int i => some (.ofRat i.val)
  | .float f => f.value

/-- A map filled from values, and its lookup. -/
def fill [DecidableEq D] (kvs : List (Value D O × V)) : IndexMap (MapKey D) V :=
  .ofPairs (kvs.filterMap fun kv => (MapKey.fromValue kv.1).map fun k => (k, kv.2))

def lookup [DecidableEq D] (m : IndexMap (MapKey D) V) (v : Value D O) : Option V :=
  (MapKey.fromValue v).bind m.get

def Integral (f : F64) (i : I64) : Prop := f.decode = .ofInt i.val

theorem tdiv_ofInt (n : Int) : (n * Datum.one).tdiv Datum.one = n :=
  Int.mul_tdiv_cancel n Datum.one_pos.ne'

theorem toI64_of_integral (h : Integral f i) : f.toI64 = i := by
  rw [F64.toI64, h, Datum.ofInt, Datum.toI64, tdiv_ofInt, I64.sat_val]

theorem ofInt_lt_iff (a b : Int) : (Datum.ofInt a).lt (.ofInt b) = decide (a < b) := by
  simp only [Datum.ofInt, Datum.lt, decide_eq_decide]
  exact mul_lt_mul_iff_left₀ Datum.one_pos

theorem ofInt_le_iff (a b : Int) : (Datum.ofInt a).le (.ofInt b) = decide (a ≤ b) := by
  rw [Datum.le, ofInt_lt_iff]
  have hb : (Datum.ofInt a).beq (.ofInt b) = decide (a = b) := by
    rw [Bool.eq_iff_iff, decide_eq_true_iff]
    simp only [Datum.ofInt, Datum.beq, beq_iff_eq]
    exact mul_left_inj' Datum.one_pos.ne'
  rw [hb, ← Bool.decide_or, decide_eq_decide]
  omega

/-- The guard shared by `int_eq_float` and the key folding. -/
def folds (f : F64) : Bool :=
  f.decode.fract.beq F64.zero.decode && f.isFinite && F64.i64Min.le f && f.lt F64.i64Sup

theorem folds_iff (f : F64) : folds f = true ↔ ∃ i, Integral f i := by
  constructor
  · intro h
    simp only [folds, Bool.and_eq_true] at h
    obtain ⟨⟨⟨hfr, hfin⟩, hlo⟩, hhi⟩ := h
    rw [F64.decode_zero] at hfr
    rw [F64.le, F64.decode_i64Min] at hlo
    rw [F64.lt, F64.decode_i64Sup] at hhi
    cases hd : f.decode with
    | nan => simp [F64.isFinite, Datum.isFinite, hd] at hfin
    | inf s => simp [F64.isFinite, Datum.isFinite, hd] at hfin
    | fin n =>
      rw [hd] at hfr hlo hhi
      have hn : n = n.tdiv Datum.one * Datum.one := by
        have hz : n.tmod Datum.one = 0 := by simpa [Datum.fract, Datum.beq] using hfr
        have := Int.tmod_add_tdiv_mul n Datum.one
        omega
      have he : Datum.fin n = .ofInt (n.tdiv Datum.one) := congrArg _ hn
      rw [he] at hlo hhi
      rw [ofInt_le_iff, decide_eq_true_iff] at hlo
      rw [ofInt_lt_iff, decide_eq_true_iff] at hhi
      exact ⟨⟨n.tdiv Datum.one, hlo, hhi⟩, hd.trans he⟩
  · rintro ⟨i, hi⟩
    have hfr : (Datum.ofInt i.val).fract = .fin 0 := by
      simp [Datum.ofInt, Datum.fract, Int.mul_tmod_left]
    rw [folds, F64.isFinite, F64.le, F64.lt, hi, hfr, F64.decode_zero, F64.decode_i64Min,
      F64.decode_i64Sup, ofInt_le_iff, ofInt_lt_iff, decide_eq_true i.lower, decide_eq_true i.upper]
    rfl

theorem intEqFloat_iff (i : I64) (f : F64) : intEqFloat i f = true ↔ Integral f i := by
  have hf : intEqFloat i f = (folds f && f.toI64 == i) := by
    rw [intEqFloat, folds, Bool.and_comm f.isFinite]
  rw [hf, Bool.and_eq_true, folds_iff, beq_iff_eq]
  constructor
  · rintro ⟨⟨j, hj⟩, hi⟩
    rw [toI64_of_integral hj] at hi
    exact hi ▸ hj
  · intro h
    exact ⟨⟨i, h⟩, toI64_of_integral h⟩

theorem integral_iff_value (f : F64) (i : I64) : Integral f i ↔ f.value = some (.ofRat i.val) := by
  rw [← Datum.value_ofInt, Integral, F64.value]
  exact ⟨fun h => h ▸ rfl, Datum.value_inj⟩

theorem lt_ofInt (n i : Int) : (Datum.fin n).lt (.ofInt i) = decide (n < i * Datum.one) := rfl

theorem ofInt_le (i n : Int) : (Datum.ofInt i).le (.fin n) = decide (i * Datum.one ≤ n) := by
  rw [Datum.le, Datum.ofInt, Datum.lt, Datum.beq, Bool.eq_iff_iff]
  simp only [Bool.or_eq_true, decide_eq_true_iff, beq_iff_eq]
  omega

theorem intCmpFloat_fin (i : I64) (h : f.decode = .fin n) :
    intCmpFloat i f = some (compare (i.val * Datum.one) n) := by
  have hone := Datum.one_pos
  have hinf : f.beq F64.infinity = false := by
    rw [F64.beq, h, F64.decode_infinity]
    rfl
  have hneg : f.beq F64.negInfinity = false := by
    rw [F64.beq, h, F64.decode_negInfinity]
    rfl
  rw [intCmpFloat, F64.isNan, F64.lt, F64.le, hinf, hneg, F64.decode_i64Min, F64.decode_i64Sup, h,
    lt_ofInt, ofInt_le, F64.decode_zero]
  simp only [Datum.isNan, Bool.false_eq_true, if_false, decide_eq_true_iff]
  split
  · rename_i hlo
    have := mul_le_mul_of_nonneg_right i.lower hone.le
    rw [compare_gt_iff_gt.mpr (by omega)]
  · split
    · rename_i hhi
      have := mul_lt_mul_of_pos_right i.upper hone
      rw [compare_lt_iff_lt.mpr (by omega)]
    · rename_i hlo hhi
      obtain ⟨hl, hu⟩ := Datum.tdiv_bounds (n := n) (by omega) (by omega)
      rw [Datum.trunc, Datum.toI64, tdiv_ofInt, I64.val_sat hl hu, ← Datum.compare_tdiv]
      cases hc : compare i.val (n.tdiv Datum.one) with
      | eq =>
        simp only [Datum.fract, Datum.lt, decide_eq_true_iff]
        split
        · rfl
        · split <;> rfl
      | lt => rfl
      | gt => rfl

theorem intCmpFloat_eq (i : I64) (f : F64) :
    intCmpFloat i f = f.value.map (compare (ExtRat.ofRat i.val)) := by
  cases h : f.decode with
  | nan => simp [intCmpFloat, F64.isNan, F64.value, h, Datum.isNan, Datum.value]
  | inf s =>
    cases s with
    | false =>
      have : compare (ExtRat.ofRat i.val) ⊤ = .lt := compare_lt_iff_lt.mpr (ExtRat.ofRat_lt_top _)
      simp [intCmpFloat, F64.isNan, F64.value, F64.beq, h, Datum.isNan, Datum.value,
        F64.decode_infinity, Datum.beq, this]
    | true =>
      have : compare (ExtRat.ofRat i.val) ⊥ = .gt := compare_gt_iff_gt.mpr (ExtRat.bot_lt_ofRat _)
      simp [intCmpFloat, F64.isNan, F64.value, F64.beq, h, Datum.isNan, Datum.value,
        F64.decode_infinity, F64.decode_negInfinity, Datum.beq, this]
  | fin n =>
    rw [intCmpFloat_fin i h, F64.value, h, Datum.value, Option.map_some, Datum.compare_ofRat]

theorem Num.eq_iff [DecidableEq D] [BEq O] (a b : Num) :
    Value.eq (a.toValue : Value D O) b.toValue = true ↔ ∃ x, a.value = some x ∧
      b.value = some x := by
  cases a with
  | int i =>
    cases b with
    | int j =>
      simp only [toValue, Value.eq, beq_iff_eq, value, Option.some.injEq, exists_eq_left',
        ExtRat.ofRat_inj, Int.cast_inj]
      exact ⟨fun h => h ▸ rfl, fun h => I64.ext h.symm⟩
    | float f =>
      simp only [toValue, Value.eq, intEqFloat_iff, integral_iff_value, value, Option.some.injEq,
        exists_eq_left']
  | float f =>
    cases b with
    | int i =>
      simp only [toValue, Value.eq, intEqFloat_iff, integral_iff_value, value, Option.some.injEq]
      exact ⟨fun h => ⟨_, h, rfl⟩, fun ⟨x, hx, hi⟩ => hi ▸ hx⟩
    | float g => exact Datum.beq_iff f.decode g.decode

namespace MapKey

variable {D : Type u} {O : Type v}

theorem ofFloat_of_integral (h : Integral f i) : (ofFloat f : MapKey D) = .int i := by
  have hf : folds f = true := (folds_iff f).mpr ⟨i, h⟩
  rw [folds] at hf
  rw [ofFloat, if_pos hf, toI64_of_integral h]

theorem ofFloat_of_not_integral (h : ¬ ∃ i, Integral f i) :
    (ofFloat f : MapKey D) = .num (if f.isNan then F64.canonicalNan.bits else f.bits) := by
  have hf : ¬ folds f = true := fun hf => h ((folds_iff f).mp hf)
  rw [folds] at hf
  rw [ofFloat, if_neg hf]

theorem isNan_iff (f : F64) : f.isNan = true ↔ f.value = none := by
  rw [F64.value, Datum.value_eq_none, F64.isNan]
  cases f.decode <;> simp [Datum.isNan]

theorem not_integral_nan (h : f.value = none) : ¬ ∃ i, Integral f i := by
  rintro ⟨i, hi⟩
  rw [integral_iff_value, h] at hi
  cases hi

theorem bits_inj (hf : ¬ ∃ i, Integral f i) (hn : f.value ≠ none) (h : f.value = g.value) :
    f = g := by
  refine F64.decode_inj (Datum.value_inj h) (fun hd => hn (Datum.value_eq_none.mpr hd)) ?_
  intro h0
  exact hf ⟨⟨0, by decide, by decide⟩, by rw [Integral, h0, Datum.ofInt, Int.zero_mul]⟩

theorem ofFloat_eq_iff (f g : F64) :
    (ofFloat f : MapKey D) = ofFloat g ↔ f.value = g.value := by
  constructor
  · intro h
    by_cases hf : ∃ i, Integral f i
    · obtain ⟨i, hi⟩ := hf
      by_cases hg : ∃ j, Integral g j
      · obtain ⟨j, hj⟩ := hg
        rw [ofFloat_of_integral hi, ofFloat_of_integral hj] at h
        cases h
        exact congrArg Datum.value (hi.trans hj.symm)
      · rw [ofFloat_of_integral hi, ofFloat_of_not_integral hg] at h
        cases h
    · by_cases hg : ∃ j, Integral g j
      · obtain ⟨j, hj⟩ := hg
        rw [ofFloat_of_not_integral hf, ofFloat_of_integral hj] at h
        cases h
      · rw [ofFloat_of_not_integral hf, ofFloat_of_not_integral hg] at h
        have hb := MapKey.num.inj h
        have hc : F64.canonicalNan.value = none := by
          rw [F64.value, F64.decode_canonicalNan]
          rfl
        by_cases hnf : f.isNan = true <;> by_cases hng : g.isNan = true
        · rw [(isNan_iff f).mp hnf, (isNan_iff g).mp hng]
        · rw [if_pos hnf, if_neg hng] at hb
          rw [(isNan_iff f).mp hnf, ← hc]
          exact congrArg (fun b => F64.value ⟨b⟩) hb
        · rw [if_neg hnf, if_pos hng] at hb
          rw [(isNan_iff g).mp hng, ← hc]
          exact congrArg (fun b => F64.value ⟨b⟩) hb
        · rw [if_neg hnf, if_neg hng] at hb
          exact congrArg (fun b => F64.value ⟨b⟩) hb
  · intro h
    by_cases hf : ∃ i, Integral f i
    · obtain ⟨i, hi⟩ := hf
      have hj : Integral g i := by
        rw [integral_iff_value] at hi ⊢
        exact h.symm.trans hi
      rw [ofFloat_of_integral hi, ofFloat_of_integral hj]
    · by_cases hn : f.value = none
      · have hng := h.symm.trans hn
        rw [ofFloat_of_not_integral hf, ofFloat_of_not_integral (not_integral_nan hng),
          if_pos ((isNan_iff f).mpr hn), if_pos ((isNan_iff g).mpr hng)]
      · rw [bits_inj hf hn h]

theorem int_eq_ofFloat_iff (i : I64) (f : F64) :
    (MapKey.int i : MapKey D) = ofFloat f ↔ f.value = some (.ofRat i.val) := by
  rw [← integral_iff_value]
  constructor
  · intro h
    by_cases hf : ∃ j, Integral f j
    · obtain ⟨j, hj⟩ := hf
      rw [ofFloat_of_integral hj] at h
      cases h
      exact hj
    · rw [ofFloat_of_not_integral hf] at h
      cases h
  · intro h
    rw [ofFloat_of_integral h]

theorem fromValue_eq_iff (a b : Num) :
    fromValue (a.toValue : Value D O) = fromValue (b.toValue : Value D O) ↔ a.value = b.value := by
  cases a with
  | int i =>
    cases b with
    | int j =>
      simp only [Num.toValue, fromValue, Option.some.injEq, MapKey.int.injEq, Num.value,
        ExtRat.ofRat_inj, Int.cast_inj]
      exact ⟨fun h => h ▸ rfl, I64.ext⟩
    | float f =>
      simp only [Num.toValue, fromValue, Option.some.injEq, int_eq_ofFloat_iff, Num.value]
      exact eq_comm
  | float f =>
    cases b with
    | int j =>
      simp only [Num.toValue, fromValue, Option.some.injEq, Num.value]
      rw [eq_comm, int_eq_ofFloat_iff]
    | float g =>
      simp only [Num.toValue, fromValue, Option.some.injEq, ofFloat_eq_iff, Num.value]

theorem roundtrip_iff (k : MapKey D) :
    fromValue (k.toValue : Value D O) = some k ↔ ∃ v : Value D O, fromValue v = some k := by
  refine ⟨fun h => ⟨_, h⟩, ?_⟩
  rintro ⟨v, hv⟩
  cases k with
  | num bits =>
    cases v with
    | float f =>
      have hk : (ofFloat f : MapKey D) = .num bits := Option.some.inj hv
      have hf : ¬ ∃ i, Integral f i := by
        rintro ⟨i, hi⟩
        rw [ofFloat_of_integral hi] at hk
        cases hk
      rw [ofFloat_of_not_integral hf] at hk
      obtain rfl := MapKey.num.inj hk
      refine congrArg some ?_
      by_cases hn : f.isNan = true
      · rw [if_pos hn]
        have hc : F64.canonicalNan.value = none := by
          rw [F64.value, F64.decode_canonicalNan]
          rfl
        exact (ofFloat_of_not_integral (not_integral_nan hc)).trans
          (by rw [if_pos ((isNan_iff _).mpr hc)])
      · rw [if_neg hn]
        exact (ofFloat_of_not_integral hf).trans (by rw [if_neg hn])
    | nil => cases hv
    | bool => cases hv
    | int => cases hv
    | decimal => cases hv
    | str => cases hv
    | other => cases hv
  | nil => rfl
  | bool => rfl
  | int => rfl
  | str => rfl
  | decimal => rfl

end MapKey

section Identity

variable {D : Type u} {O : Type v} {V : Type w}

/-- A nan, as a value. -/
def Value.isNan : Value D O → Bool
  | .float f => f.isNan
  | _ => false

theorem Num.isNan_toValue (a : Num) : (a.toValue : Value D O).isNan = true ↔ a.value = none := by
  cases a with
  | int i => simp [Num.toValue, Value.isNan, Num.value]
  | float f => exact MapKey.isNan_iff f

theorem Num.toValue_of_key {k : MapKey D} (a : Num)
    (h : MapKey.fromValue (a.toValue : Value D O) = some k) :
    ∃ b : Num, (k.toValue : Value D O) = b.toValue := by
  cases a with
  | int i =>
    cases h
    exact ⟨.int i, rfl⟩
  | float f =>
    rw [Num.toValue, MapKey.fromValue, Option.some.injEq, MapKey.ofFloat] at h
    split at h
    · cases h
      exact ⟨.int _, rfl⟩
    · cases h
      exact ⟨.float _, rfl⟩

variable [DecidableEq D]

theorem fill_key {kvs : List (Value D O × V)} (h : k ∈ (fill kvs).keys) :
    ∃ v : Value D O, MapKey.fromValue v = some k := by
  rw [fill, IndexMap.mem_keys_ofPairs, List.mem_map] at h
  obtain ⟨p, hp, rfl⟩ := h
  obtain ⟨kv, -, hkv⟩ := List.mem_filterMap.mp hp
  obtain ⟨k, hk, rfl⟩ := Option.map_eq_some_iff.mp hkv
  exact ⟨kv.1, hk⟩

variable [BEq O]

theorem Num.value_eq_iff (a b : Num) :
    a.value = b.value ↔
      Value.eq (a.toValue : Value D O) b.toValue = true ∨ (a.value = none ∧ b.value = none) := by
  rw [Num.eq_iff]
  constructor
  · intro h
    cases ha : a.value with
    | none => exact .inr ⟨rfl, h.symm.trans ha⟩
    | some x => exact .inl ⟨x, rfl, h.symm.trans ha⟩
  · rintro (⟨x, ha, hb⟩ | ⟨ha, hb⟩)
    · exact ha.trans hb.symm
    · exact ha.trans hb.symm

theorem key_answers_iff (a : Num) {k : MapKey D}
    (hk : ∃ v : Value D O, MapKey.fromValue v = some k) :
    MapKey.fromValue (a.toValue : Value D O) = some k ↔
      Value.eq (k.toValue : Value D O) a.toValue = true ∨
        ((k.toValue : Value D O).isNan = true ∧ (a.toValue : Value D O).isNan = true) := by
  have hrt := (MapKey.roundtrip_iff (O := O) k).mpr hk
  have agree : ∀ b : Num, (k.toValue : Value D O) = b.toValue →
      (MapKey.fromValue (a.toValue : Value D O) = some k ↔
        Value.eq (k.toValue : Value D O) a.toValue = true ∨
          ((k.toValue : Value D O).isNan = true ∧ (a.toValue : Value D O).isNan = true)) := by
    intro b hb
    rw [hb] at hrt ⊢
    rw [← hrt, eq_comm, MapKey.fromValue_eq_iff, b.isNan_toValue, a.isNan_toValue]
    exact b.value_eq_iff a
  constructor
  · intro h
    obtain ⟨b, hb⟩ := a.toValue_of_key h
    exact (agree b hb).mp h
  · intro h
    cases k with
    | int i => exact (agree (.int i) rfl).mpr h
    | num bits => exact (agree (.float ⟨bits⟩) rfl).mpr h
    | nil => cases a <;> simp [MapKey.toValue, Num.toValue, Value.eq, Value.isNan] at h
    | bool => cases a <;> simp [MapKey.toValue, Num.toValue, Value.eq, Value.isNan] at h
    | str => cases a <;> simp [MapKey.toValue, Num.toValue, Value.eq, Value.isNan] at h
    | decimal => cases a <;> simp [MapKey.toValue, Num.toValue, Value.eq, Value.isNan] at h

/-- Equality, ordering and key folding are one relation on numbers, nans apart: a nan equals
nothing but all nans fold to one key, and the keys that come back from their value are the
folded ones. -/
theorem number_identity :
    (∀ i f, intEqFloat i f = true ↔ f.value = some (.ofRat i.val)) ∧
    (∀ i f, intCmpFloat i f = f.value.map (compare (ExtRat.ofRat i.val))) ∧
    (∀ a b : Num, Value.eq (a.toValue : Value D O) b.toValue = true ↔
      ∃ x, a.value = some x ∧ b.value = some x) ∧
    (∀ a b : Num,
      MapKey.fromValue (a.toValue : Value D O) = MapKey.fromValue (b.toValue : Value D O) ↔
      Value.eq (a.toValue : Value D O) b.toValue = true ∨ (a.value = none ∧ b.value = none)) ∧
    (∀ (kvs : List (Value D O × V)) (a : Num), (lookup (fill kvs) (a.toValue : Value D O)).isSome ↔
      ∃ k ∈ (fill kvs).keys, Value.eq (k.toValue : Value D O) a.toValue = true ∨
        ((k.toValue : Value D O).isNan = true ∧ (a.toValue : Value D O).isNan = true)) ∧
    (∀ k : MapKey D, MapKey.fromValue (k.toValue : Value D O) = some k ↔
      ∃ v : Value D O, MapKey.fromValue v = some k) := by
  refine ⟨fun i f => ?_, intCmpFloat_eq, Num.eq_iff, fun a b => ?_, fun kvs a => ?_,
    MapKey.roundtrip_iff⟩
  · rw [intEqFloat_iff, integral_iff_value]
  · rw [MapKey.fromValue_eq_iff]
    exact a.value_eq_iff b
  · obtain ⟨k₀, h₀⟩ : ∃ k, MapKey.fromValue (a.toValue : Value D O) = some k := by
      cases a <;> exact ⟨_, rfl⟩
    rw [lookup, h₀, Option.bind_some, IndexMap.isSome_get_iff]
    constructor
    · intro hk
      exact ⟨k₀, hk, (key_answers_iff a (fill_key hk)).mp h₀⟩
    · rintro ⟨k, hk, hv⟩
      have hkey := (key_answers_iff a (fill_key hk)).mpr hv
      rw [h₀] at hkey
      cases hkey
      exact hk

/-- A nan equals no value yet folds to the key of every nan; a key spelling `0.0` by its bits
comes back as the integer key. -/
theorem nan_shares_key_and_zero_respells :
    ¬ (∀ a b : Num, MapKey.fromValue (a.toValue : Value Unit Unit) =
        MapKey.fromValue (b.toValue : Value Unit Unit) ↔
        Value.eq (a.toValue : Value Unit Unit) b.toValue = true) ∧
    ¬ (∀ k : MapKey Unit, MapKey.fromValue (k.toValue : Value Unit Unit) = some k) := by
  constructor
  · intro h
    have hn := (h (.float F64.canonicalNan) (.float F64.canonicalNan)).mp rfl
    revert hn
    decide
  · intro h
    have h0 := h (.num F64.zero.bits)
    have hi : Integral F64.zero ⟨0, by decide, by decide⟩ := by
      rw [Integral, F64.decode_zero, Datum.ofInt, Int.zero_mul]
    rw [MapKey.toValue, MapKey.fromValue] at h0
    cases (MapKey.ofFloat_of_integral hi).symm.trans (Option.some.inj h0)

end Identity

end AScript.Runtime
