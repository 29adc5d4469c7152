import AScript.Runtime.RangeCounter

namespace AScript.Runtime

open AScript.Lib AScript.Lib.Datum

def intValues (lo hi : I64) (k : Option I64) (inclusive : Bool) : List Scalar :=
  (elements lo.val hi.val (stride lo hi k) inclusive).map fun x => .int (.sat x)

structure Exact (lo hi : I64) (k : Option I64) (inclusive : Bool) : Prop where
  materialized : ∃ n, ∀ fuel ≥ n,
    materializeRangeStepped fuel (.int lo) (.int hi) inclusive (k.map .int) =
      some (.ok (intValues lo hi k inclusive))
  builtin : inclusive = false → ∀ s ∈ k, ∃ n, ∀ fuel ≥ n,
    range fuel [.int lo, .int hi, .int s] = some (.ok (intValues lo hi k inclusive))
  matched : ∀ x : I64,
    rangePatternContains (.ofI64 x) (.ofI64 lo) (.ofI64 hi) (k.map .ofI64) inclusive ↔
      x.val ∈ elements lo.val hi.val (stride lo hi k) inclusive

def Alone (e : Int) : Prop := ∀ x : I64, roundInt x.val = roundInt e → x.val = e

/-- What counting needs: elements that stand alone, an exact step between two of them, and a
rounded sum after the last that is past the rounded bound. -/
structure Counted (lo hi k : Int) (inclusive : Bool) : Prop where
  alone : ∀ e ∈ elements lo hi k inclusive, Alone e
  step : ∀ e ∈ elements lo hi k inclusive, e + k ∈ elements lo hi k inclusive → roundInt k = k
  ends : ∀ e ∈ elements lo hi k inclusive, e + k ∉ elements lo hi k inclusive →
    ¬Inside (roundInt hi) k inclusive (roundInt (e + roundInt k))

structure Outwards (lo hi k : Int) (inclusive : Bool) : Prop where
  side : 0 ≤ k.sign * lo
  sums : ∀ e ∈ elements lo hi k inclusive, roundInt (e + roundInt k) = e + roundInt k
  distances : ∀ n, roundInt n = n → Inside (roundInt hi) k inclusive n → Onward k lo n →
    roundInt (n - lo) = n - lo

/-- Distances that are not divided, that are short, or that are not rounded. -/
structure Unrounded (lo hi k : Int) (inclusive : Bool) : Prop
    extends Counted lo hi k inclusive where
  spread : k.natAbs = 1 ∨ (last (roundInt hi) k inclusive - lo).natAbs ≤ 2 ^ 53 ∨
    Outwards lo hi k inclusive

theorem roundInt_top : roundInt (2 ^ 63 - 1) = 2 ^ 63 ∧ roundInt (2 ^ 63 - 2) = 2 ^ 63 := by
  decide +kernel

theorem Alone.kept (h : Alone e) (hl : -2 ^ 63 ≤ e) (hu : e < 2 ^ 63) : roundInt e = e := by
  have hlow := roundInt_mono hl
  have hup := roundInt_mono (Int.le_of_lt hu)
  rw [roundInt_neg_two_pow] at hlow
  rw [roundInt_two_pow] at hup
  by_cases htop : roundInt e < 2 ^ 63
  · exact h ⟨roundInt e, hlow, htop⟩ (roundInt_idem e)
  · have h₁ : (2 ^ 63 - 1 : Int) = e :=
      h ⟨2 ^ 63 - 1, by decide, by decide⟩ (by rw [roundInt_top.1]; omega)
    have h₂ : (2 ^ 63 - 2 : Int) = e :=
      h ⟨2 ^ 63 - 2, by decide, by decide⟩ (by rw [roundInt_top.2]; omega)
    omega

section Counted

variable {lo hi k : Int} {inclusive : Bool}
  (hc : Counted lo hi k inclusive) (hk : k ≠ 0) (hk' : k.natAbs ≤ 2 ^ 63)
  (hel : ∀ e ∈ elements lo hi k inclusive, -2 ^ 63 ≤ e ∧ e < 2 ^ 63)

include hc hel in
theorem Counted.kept (he : e ∈ elements lo hi k inclusive) : roundInt e = e :=
  (hc.alone e he).kept (hel e he).1 (hel e he).2

include hc hk in
theorem Counted.step_eq (h : 1 < size lo hi k inclusive) : roundInt k = k := by
  have h0 := mem_of_lt (j := 0) hk (Nat.lt_of_succ_lt h)
  have h1 := mem_of_lt (j := 1) hk h
  rw [Int.natCast_zero, Int.zero_mul, Int.add_zero] at h0
  rw [Int.natCast_one, Int.one_mul] at h1
  exact hc.step lo h0 h1

include hc hk in
theorem Counted.mul_step (hj : j < size lo hi k inclusive) : (j : Int) * roundInt k = j * k := by
  rcases Nat.eq_zero_or_pos j with rfl | hpos
  · simp
  · rw [hc.step_eq hk (by omega)]

include hc hk hk' hel in
theorem Counted.counter_eq (hj : j < size lo hi k inclusive) :
    counter (.ofInt (roundInt k)) (.ofInt lo) j = .ofInt (lo + j * k) := by
  induction j with
  | zero => simp
  | succ j ih =>
    have he := mem_of_lt hk (Nat.lt_of_succ_lt hj)
    have hnext := mem_of_lt hk hj
    have hle := hel _ he
    have hstep := natAbs_roundInt (e := 63) hk'
    have hsum : lo + j * k + k = lo + (j + 1 : Nat) * k := by
      push_cast
      ring
    rw [counter, ih (Nat.lt_of_succ_lt hj), ofInt_add (by omega), hc.step_eq hk (by omega), hsum,
      hc.kept hel hnext]

include hc in
theorem Counted.inside_round {hi' : I64} (hhi : hi'.val = hi) (hk : k ≠ 0)
    (hel : ∀ e ∈ elements lo hi k inclusive, -2 ^ 63 ≤ e ∧ e < 2 ^ 63)
    (he : e ∈ elements lo hi k inclusive) : Inside (roundInt hi) k inclusive e := by
  have hin := ((mem_elements_iff hk).mp he).1.to_round fun heq =>
    (hhi ▸ hc.alone e he hi' (hhi ▸ heq.symm)).symm
  rwa [hc.kept hel he] at hin

include hc hk hk' hel in
theorem Counted.countFrom_elements {hi' : I64} (hhi : hi'.val = hi)
    (hlo : lo ∈ elements lo hi k inclusive) (hf : size lo hi k inclusive < fuel) :
    countFrom (rangeHasNext · (.ofInt (roundInt hi)) (.ofInt (roundInt k)) inclusive)
        (.ofInt (roundInt k)) true fuel (.ofInt (roundInt lo)) =
      some ((elements lo hi k inclusive).map fun x => .int (.sat x)) := by
  rw [hc.kept hel hlo]
  obtain ⟨m, hm⟩ : ∃ m, size lo hi k inclusive = m + 1 := by
    have hpos := lt_of_mem (j := 0) hk (by simpa using hlo)
    exact ⟨size lo hi k inclusive - 1, by omega⟩
  have hnext (j : Nat) (hj : j < size lo hi k inclusive) :
      rangeHasNext (counter (.ofInt (roundInt k)) (.ofInt lo) j) (.ofInt (roundInt hi))
        (.ofInt (roundInt k)) inclusive = true := by
    rw [hc.counter_eq hk hk' hel hj, hasNext_ofInt, decide_eq_true_eq, inside_round_step]
    exact hc.inside_round hhi hk hel (mem_of_lt hk hj)
  have hstop : rangeHasNext (counter (.ofInt (roundInt k)) (.ofInt lo) (size lo hi k inclusive))
      (.ofInt (roundInt hi)) (.ofInt (roundInt k)) inclusive = false := by
    have he : lo + m * k ∈ elements lo hi k inclusive := mem_of_lt hk (by omega)
    have hle := hel _ he
    have hstep := natAbs_roundInt (e := 63) hk'
    have hout : lo + m * k + k ∉ elements lo hi k inclusive := fun h => by
      have := lt_of_mem (j := m + 1) hk (by rwa [Int.natCast_succ, Int.add_mul, Int.one_mul,
        ← Int.add_assoc])
      omega
    rw [hm, counter, hc.counter_eq hk hk' hel (by omega), ofInt_add (by omega), hasNext_ofInt,
      decide_eq_false_iff_not, inside_round_step]
    exact hc.ends _ he hout
  rw [countFrom_run hnext hstop hf, elements_eq, List.map_map]
  congr 1
  refine List.map_congr_left fun j hj => ?_
  have he := hel _ (mem_of_lt hk (List.mem_range.mp hj))
  rw [hc.counter_eq hk hk' hel (List.mem_range.mp hj), counterValue_int he.1 he.2]
  rfl

end Counted

theorem natAbs_of_sign {k y : Int} (hk : k ≠ 0) (h : 0 ≤ k.sign * y) :
    (y.natAbs : Int) = k.sign * y := by
  rcases Int.lt_or_gt_of_ne hk with hneg | hpos
  · rw [Int.sign_eq_neg_one_of_neg hneg] at h ⊢
    omega
  · rw [Int.sign_eq_one_of_pos hpos] at h ⊢
    omega

theorem sign_mul_roundInt (k : Int) : k.sign * roundInt k = (roundInt k).natAbs := by
  rw [← sign_roundInt, Int.sign_mul_self_eq_natAbs]

theorem roundInt_ne_zero (hk : k ≠ 0) : roundInt k ≠ 0 := fun h => by
  have hsign := sign_roundInt k
  rw [h, Int.sign_zero] at hsign
  exact hk (Int.sign_eq_zero_iff_zero.mp hsign.symm)

theorem onward_dist (hk : k ≠ 0) (hside : Onward k lo x) :
    k.sign * x = k.sign * lo + (x - lo).natAbs := by
  have hnonneg := (Onward.sub hk).mp hside
  rw [natAbs_of_sign hk hnonneg]
  ring

section Unrounded

variable {lo hi k : Int} {inclusive : Bool}

theorem Unrounded.dist (hu : Unrounded lo hi k inclusive) (hk : k ≠ 0) (hone : k.natAbs ≠ 1)
    (hx : roundInt x = x) (hin : Inside (roundInt hi) k inclusive x) (hside : Onward k lo x) :
    roundInt (x - lo) = x - lo ∧ ((x - lo).natAbs ≤ 2 ^ 53 ∨ Outwards lo hi k inclusive) := by
  rcases hu.spread with h | hshort | hout
  · exact absurd h hone
  · have hlast := (inside_iff hk).mp hin
    have hle : (x - lo).natAbs ≤ 2 ^ 53 := by
      unfold Onward at hlast hside
      split at hlast <;> simp_all only [if_true, if_false] <;> omega
    exact ⟨roundInt_small hle, .inl hle⟩
  · exact ⟨hout.distances x hx hin hside, .inr hout⟩

theorem Counted.before (hc : Counted lo hi k inclusive) (hk : k ≠ 0)
    (hlo : lo ∈ elements lo hi k inclusive) (hx : roundInt x = x)
    (hin : Inside (roundInt hi) k inclusive x) (hside : Onward k lo x) :
    (x - lo).natAbs / (roundInt k).natAbs < size lo hi k inclusive := by
  obtain ⟨m, hm⟩ : ∃ m, size lo hi k inclusive = m + 1 := by
    have hpos := lt_of_mem (j := 0) hk (by simpa using hlo)
    exact ⟨size lo hi k inclusive - 1, by omega⟩
  have hmem : lo + m * k ∈ elements lo hi k inclusive := mem_of_lt hk (by omega)
  have hout : lo + m * k + k ∉ elements lo hi k inclusive := fun h => by
    have := lt_of_mem (j := m + 1) hk (by rwa [Int.natCast_succ, Int.add_mul, Int.one_mul,
      ← Int.add_assoc])
    omega
  have hbefore : ¬Onward k (lo + m * k + roundInt k) x := fun h =>
    hc.ends _ hmem hout (h.round.inside hk (hx.symm ▸ hin))
  rw [Onward.sub hk, Int.not_le, ← hc.mul_step hk (show m < _ by omega)] at hbefore
  have hdist : k.sign * (x - (lo + m * roundInt k + roundInt k)) =
      k.sign * x - k.sign * lo - (m + 1) * (k.sign * roundInt k) := by ring
  rw [hdist, onward_dist hk hside, sign_mul_roundInt] at hbefore
  rw [hm, Nat.div_lt_iff_lt_mul (Int.natAbs_pos.mpr (roundInt_ne_zero hk))]
  have hlt : ((x - lo).natAbs : Int) < (m + 1) * (roundInt k).natAbs := by omega
  exact_mod_cast hlt

theorem Unrounded.mem_of_whole (hu : Unrounded lo hi k inclusive) (hk : k ≠ 0)
    (hk' : k.natAbs ≤ 2 ^ 63) (hone : k.natAbs ≠ 1)
    (hel : ∀ e ∈ elements lo hi k inclusive, -2 ^ 63 ≤ e ∧ e < 2 ^ 63)
    (hlo : lo ∈ elements lo hi k inclusive) (hx : roundInt x = x) (hx' : x.natAbs ≤ 2 ^ 63)
    (hin : Inside (roundInt hi) k inclusive x) (hside : Onward k lo x)
    (hw : isWhole ((Datum.ofInt (roundInt (x - lo))).div (.ofInt (roundInt k))) = true) :
    x ∈ elements lo hi k inclusive := by
  have hc := hu.toCounted
  have hlo' := hel lo hlo
  have hbound : (x - lo).natAbs ≤ 2 ^ 66 := by omega
  have hk₁ := natAbs_roundInt (e := 63) hk'
  obtain ⟨hexact, hnear⟩ := hu.dist hk hone hx hin hside
  have hj := hc.before hk hlo hx hin hside
  have hxd := onward_dist hk hside
  generalize hdef : (x - lo).natAbs / (roundInt k).natAbs = j at hj
  have hmul := hc.mul_step hk hj
  have hjk : k.sign * (j * k) = (j * (roundInt k).natAbs : Nat) := by
    rw [← hmul, Int.mul_left_comm, sign_mul_roundInt, Int.natCast_mul]
  rw [hexact, isWhole_div (roundInt_ne_zero hk) hbound
    (by rw [sign_roundInt]; exact (Onward.sub hk).mp hside), decide_eq_true_eq] at hw
  by_cases hdvd : (roundInt k).natAbs ∣ (x - lo).natAbs
  · have hd : (x - lo).natAbs = j * (roundInt k).natAbs := by
      rw [← hdef, Nat.div_mul_cancel hdvd]
    have hxe : x = lo + j * k := by
      have hsign : k.sign * (x - (lo + j * k)) = 0 := by
        rw [Int.mul_sub, Int.mul_add, hxd, hjk, hd]
        ring
      have := (Int.mul_eq_zero.mp hsign).resolve_left fun h => hk (Int.sign_eq_zero_iff_zero.mp h)
      omega
    exact hxe ▸ mem_of_lt hk hj
  · have hlow : j * (roundInt k).natAbs < (x - lo).natAbs := by
      refine Nat.lt_of_le_of_ne (hdef ▸ Nat.div_mul_le_self ..) fun heq => hdvd ?_
      exact heq ▸ Nat.dvd_mul_left ..
    have hhigh : (x - lo).natAbs < j * (roundInt k).natAbs + (roundInt k).natAbs := by
      rw [← hdef]
      exact Nat.lt_div_mul_add (Int.natAbs_pos.mpr (roundInt_ne_zero hk))
    refine absurd hw (not_whole hk₁ (by decide) hlow hhigh ?_ ?_)
    · cases hnear with
      | inl hshort => omega
      | inr hout =>
        have he := hc.kept hel (mem_of_lt hk hj)
        have hje := natAbs_of_sign (y := lo + j * k) hk (by
          rw [Int.mul_add, hjk]
          have := hout.side
          omega)
        have hjx := natAbs_of_sign (y := x) hk (by
          rw [hxd]
          have := hout.side
          omega)
        rw [Int.mul_add, hjk] at hje
        have hside := hout.side
        have hgap := roundInt_gap he hx (by omega)
        omega
    · cases hnear with
      | inl hshort => omega
      | inr hout =>
        have he := hout.sums _ (mem_of_lt hk hj)
        have hside := hout.side
        have hje := natAbs_of_sign (y := lo + j * k + roundInt k) hk (by
          rw [Int.mul_add, Int.mul_add, hjk, sign_mul_roundInt]
          omega)
        have hjx := natAbs_of_sign (y := x) hk (by
          rw [hxd]
          omega)
        rw [Int.mul_add, Int.mul_add, hjk, sign_mul_roundInt] at hje
        have hgap := roundInt_gap hx he (by omega)
        omega

end Unrounded

theorem zero_eq : zero = .ofInt 0 := by rw [zero, ofInt, Int.zero_mul]

theorem stride_none (lo hi : I64) : (stride lo hi none).natAbs = 1 := by
  rw [stride]
  split <;> rfl

theorem natAbs_stride (lo hi : I64) (k : Option I64) : (stride lo hi k).natAbs ≤ 2 ^ 63 := by
  cases k with
  | some k =>
    have hl := k.lower
    have hu := k.upper
    rw [stride]
    omega
  | none =>
    rw [stride]
    split <;> decide

theorem element_bounds (hk : stride lo hi k ≠ 0)
    (he : e ∈ elements lo.val hi.val (stride lo hi k) inclusive) : -2 ^ 63 ≤ e ∧ e < 2 ^ 63 := by
  obtain ⟨hin, hside, -⟩ := (mem_elements_iff hk).mp he
  have hlo := lo.lower
  have hlo' := lo.upper
  have hhi := hi.lower
  have hhi' := hi.upper
  unfold Inside at hin
  unfold Onward at hside
  split at hside
  · next h =>
    rw [if_pos h] at hin
    cases inclusive <;> simp only [Bool.false_eq_true, if_true, if_false] at hin <;> omega
  · next h =>
    rw [if_neg h] at hin
    cases inclusive <;> simp only [Bool.false_eq_true, if_true, if_false] at hin <;> omega

theorem beq_zero_step (hk : k ≠ 0) : (Datum.ofInt (roundInt k)).beq zero = false := by
  rw [zero_eq, ofInt_beq, decide_eq_false_iff_not]
  exact roundInt_ne_zero hk

theorem resolveStep_getD {step : Option Datum} (h : resolveStep lo hi step = .ok s) :
    s = step.getD (inferredStep lo hi) := by
  cases step with
  | none => exact (Except.ok.inj h).symm
  | some d =>
    rw [resolveStep] at h
    split at h
    · cases h
    split at h
    · cases h
    · exact (Except.ok.inj h).symm

/-- A step leads towards the end, or the ends agree. -/
def Towards (lo hi k : Int) : Prop := k ≠ 0 ∧ (lo = hi ∨ (0 < k ↔ lo < hi))

instance : Decidable (Towards lo hi k) := inferInstanceAs (Decidable (_ ∧ _))

theorem materialize_eq {k : Option I64}
    (h : resolveStep (.ofI64 lo) (.ofI64 hi) (k.map .ofI64) = .ok step) :
    materializeRangeStepped fuel (.int lo) (.int hi) inclusive (k.map .int) =
      (countFrom (rangeHasNext · (.ofI64 hi) step inclusive) step true fuel (.ofI64 lo)).map
        .ok := by
  cases k with
  | none =>
    rw [Option.map_none] at h
    simp [materializeRangeStepped, Scalar.asF64, Scalar.isIntValue, h]
  | some k =>
    rw [Option.map_some] at h
    simp [materializeRangeStepped, Scalar.asF64, Scalar.isIntValue, h]

theorem range_eq (h : (Datum.ofI64 k).beq zero = false) :
    range fuel [.int lo, .int hi, .int k] =
      (countFrom (rangeHasNext · (.ofI64 hi) (.ofI64 k) false) (.ofI64 k) true fuel
        (.ofI64 lo)).map .ok := by
  have hargs : rangeArgs [.int lo, .int hi, .int k] =
      .ok ((.ofI64 lo, true), (.ofI64 hi, true), (.ofI64 k, true)) := rfl
  rw [range, hargs]
  simp only [h, rangeHasNext, Bool.false_eq_true, if_false, Bool.and_self]

theorem patternContains_eq (x lo hi : Datum) (stepV : Option Datum) (inclusive : Bool) :
    rangePatternContains x lo hi stepV inclusive =
      (rangeHasNext x hi (stepV.getD (inferredStep lo hi)) inclusive &&
        (if zero.lt (stepV.getD (inferredStep lo hi)) then lo.le x else x.le lo) &&
        stepV.all fun k => isWhole ((x.sub lo).div k)) := by
  cases stepV <;> rfl

theorem Towards.onward (ht : Towards lo hi k) : Onward k lo hi := by
  unfold Towards at ht
  unfold Onward
  split <;> omega

section Bounds

variable {lo hi : I64} {k : Option I64} {inclusive : Bool}

theorem resolved_step (hne : roundInt hi.val = roundInt lo.val → hi.val = lo.val) :
    (k.map Datum.ofI64).getD (inferredStep (.ofI64 lo) (.ofI64 hi)) =
      .ofInt (roundInt (stride lo hi k)) := by
  cases k with
  | some k => rw [Option.map_some, Option.getD_some, ofI64_roundInt, stride]
  | none =>
    have hsmall := stride_none lo hi
    rw [Option.map_none, Option.getD_none, inferredStep, ofI64_roundInt, ofI64_roundInt,
      Datum.ofInt_le, roundInt_small (n := stride lo hi none) (by omega), stride]
    by_cases h : lo.val ≤ hi.val
    · rw [if_pos (decide_eq_true (roundInt_mono h)), if_pos h]
    · have hle := roundInt_mono (Int.le_of_lt (Int.not_le.mp h))
      have hlt : roundInt hi.val < roundInt lo.val :=
        lt_of_le_of_ne hle fun heq => h (hne heq).ge
      rw [if_neg (by simpa using hlt), if_neg h]

theorem resolveStep_ok (ht : Towards lo.val hi.val (stride lo hi k))
    (hne : roundInt hi.val = roundInt lo.val → hi.val = lo.val) :
    resolveStep (.ofI64 lo) (.ofI64 hi) (k.map .ofI64) =
      .ok (.ofInt (roundInt (stride lo hi k))) := by
  have hres := resolved_step (k := k) hne
  cases k with
  | none => rw [Option.map_none, resolveStep, ← hres, Option.map_none, Option.getD_none]
  | some k =>
    rw [Option.map_some, Option.getD_some] at hres
    have hmove : (!(Datum.ofInt (roundInt lo.val)).beq (.ofInt (roundInt hi.val)) &&
        zero.lt (.ofInt (roundInt (stride lo hi (some k)))) !=
          (Datum.ofInt (roundInt lo.val)).lt (.ofInt (roundInt hi.val))) = false := by
      rw [zero_eq, ofInt_beq, ofInt_lt, ofInt_lt]
      by_cases heq : roundInt lo.val = roundInt hi.val
      · simp [heq]
      · have hlt : roundInt lo.val < roundInt hi.val ↔ lo.val < hi.val := by
          constructor
          · intro h
            by_contra hge
            have hle := roundInt_mono (Int.not_lt.mp hge)
            omega
          · intro h
            have hle := roundInt_mono (Int.le_of_lt h)
            omega
        have hdir := ht.2.resolve_left fun h => heq (congrArg _ h)
        simp [hlt, roundInt_pos, hdir]
    rw [Option.map_some, resolveStep, hres, beq_zero_step ht.1, ofI64_roundInt, ofI64_roundInt,
      hmove]
    rfl

theorem contains_iff (hne : roundInt hi.val = roundInt lo.val → hi.val = lo.val) (x : I64) :
    rangePatternContains (.ofI64 x) (.ofI64 lo) (.ofI64 hi) (k.map .ofI64) inclusive = true ↔
      Inside (roundInt hi.val) (stride lo hi k) inclusive (roundInt x.val) ∧
        Onward (stride lo hi k) (roundInt lo.val) (roundInt x.val) ∧
          (k ≠ none → isWhole ((Datum.ofInt (roundInt (roundInt x.val - roundInt lo.val))).div
            (.ofInt (roundInt (stride lo hi k)))) = true) := by
  have hlo := natAbs_roundInt (n := lo.val) (e := 63) (by have := lo.lower; have := lo.upper; omega)
  have hx := natAbs_roundInt (n := x.val) (e := 63) (by have := x.lower; have := x.upper; omega)
  have hside : (if zero.lt (.ofInt (roundInt (stride lo hi k))) then
      (Datum.ofI64 lo).le (.ofI64 x) else (Datum.ofI64 x).le (.ofI64 lo)) =
        decide (Onward (stride lo hi k) (roundInt lo.val) (roundInt x.val)) := by
    rw [zero_eq, ofInt_lt, ofI64_roundInt, ofI64_roundInt, Datum.ofInt_le, Datum.ofInt_le]
    unfold Onward
    by_cases h : 0 < stride lo hi k <;> simp [roundInt_pos, h]
  rw [patternContains_eq, resolved_step hne, hside, ofI64_roundInt, ofI64_roundInt, ofI64_roundInt,
    hasNext_ofInt, Bool.and_eq_true, Bool.and_eq_true, decide_eq_true_eq, decide_eq_true_eq,
    inside_round_step, and_assoc, ofInt_sub (by omega)]
  cases k with
  | none => simp
  | some s => simp [stride, ofI64_roundInt]

theorem Unrounded.mem_of_contains (hu : Unrounded lo.val hi.val (stride lo hi k) inclusive)
    (ht : Towards lo.val hi.val (stride lo hi k))
    (hlo : lo.val ∈ elements lo.val hi.val (stride lo hi k) inclusive) (x : I64)
    (hin : Inside (roundInt hi.val) (stride lo hi k) inclusive (roundInt x.val))
    (hside : Onward (stride lo hi k) lo.val (roundInt x.val))
    (hw : k ≠ none → isWhole ((Datum.ofInt (roundInt (roundInt x.val - lo.val))).div
      (.ofInt (roundInt (stride lo hi k)))) = true) :
    x.val ∈ elements lo.val hi.val (stride lo hi k) inclusive := by
  have hc := hu.toCounted
  have hel e (he : e ∈ elements lo.val hi.val (stride lo hi k) inclusive) := element_bounds ht.1 he
  by_cases hone : (stride lo hi k).natAbs = 1
  · have hdvd (y : Int) : stride lo hi k ∣ y := by
      rw [← Int.natAbs_dvd_natAbs, hone]
      exact Nat.one_dvd _
    refine (mem_elements_iff ht.1).mpr ⟨hin.round ht.1 fun hincl heq => ?_, ?_, hdvd _⟩
    · have hhi : hi.val ∈ elements lo.val hi.val (stride lo hi k) inclusive := by
        refine (mem_elements_iff ht.1).mpr ⟨?_, ht.onward, hdvd _⟩
        simp [Inside, hincl]
      exact hc.alone _ hhi x heq
    · rcases onward_total (stride lo hi k) lo.val x.val with h | h
      · exact h
      · have hround := h.round
        rw [hc.kept hel hlo] at hround
        have heq := (hround.antisymm hside).trans (hc.kept hel hlo).symm
        rw [hc.alone _ hlo x heq]
        unfold Onward
        split <;> exact le_refl _
  · have hsome : k ≠ none := by
      rintro rfl
      exact hone (stride_none lo hi)
    have hx := natAbs_roundInt (n := x.val) (e := 63)
      (by have := x.lower; have := x.upper; omega)
    have hmem := hu.mem_of_whole ht.1 (natAbs_stride lo hi k) hone hel hlo (roundInt_idem _) hx hin
      hside (hw hsome)
    have heq := hc.alone _ hmem x (roundInt_idem _).symm
    rwa [← heq] at hmem

theorem Unrounded.whole (hu : Unrounded lo.val hi.val (stride lo hi k) inclusive)
    (hk : stride lo hi k ≠ 0)
    (hlo : lo.val ∈ elements lo.val hi.val (stride lo hi k) inclusive) (x : I64)
    (hx : x.val ∈ elements lo.val hi.val (stride lo hi k) inclusive) :
    isWhole ((Datum.ofInt (roundInt (x.val - lo.val))).div (.ofInt (roundInt (stride lo hi k)))) =
      true := by
  have hc := hu.toCounted
  have hel e (he : e ∈ elements lo.val hi.val (stride lo hi k) inclusive) := element_bounds hk he
  obtain ⟨hin, hside, -⟩ := (mem_elements_iff hk).mp hx
  have hlo' := hel _ hlo
  have hx' := hel _ hx
  have hdist := natAbs_roundInt (n := x.val - lo.val) (e := 66) (by omega)
  have hsign : 0 ≤ (roundInt (stride lo hi k)).sign * roundInt (x.val - lo.val) := by
    have hnonneg := (Onward.sub hk).mp hside
    rw [sign_roundInt]
    rcases Int.lt_or_gt_of_ne hk with h | h
    · rw [Int.sign_eq_neg_one_of_neg h] at hnonneg ⊢
      have hmono := roundInt_mono (show x.val - lo.val ≤ 0 by omega)
      rw [roundInt_small (n := 0) (by decide)] at hmono
      omega
    · rw [Int.sign_eq_one_of_pos h] at hnonneg ⊢
      have hmono := roundInt_mono (show 0 ≤ x.val - lo.val by omega)
      rw [roundInt_small (n := 0) (by decide)] at hmono
      omega
  refine isWhole_of_dvd (roundInt_ne_zero hk) hdist hsign ?_
  by_cases hone : (stride lo hi k).natAbs = 1
  · rw [roundInt_small (n := stride lo hi k) (by omega), ← Int.natAbs_dvd_natAbs, hone]
    exact Nat.one_dvd _
  · rw [(hu.dist hk hone (hc.kept hel hx) (hc.inside_round rfl hk hel hx) hside).1]
    obtain ⟨j, hj, -⟩ := (mem_elements hk).mp hx
    rw [hj] at hx ⊢
    rw [add_sub_cancel_left, ← hc.mul_step hk (lt_of_mem hk hx)]
    exact Int.dvd_mul_left ..

theorem exact_of_unrounded (hu : Unrounded lo.val hi.val (stride lo hi k) inclusive)
    (ht : Towards lo.val hi.val (stride lo hi k))
    (hlo : lo.val ∈ elements lo.val hi.val (stride lo hi k) inclusive) :
    Exact lo hi k inclusive := by
  have hc := hu.toCounted
  have hel e (he : e ∈ elements lo.val hi.val (stride lo hi k) inclusive) := element_bounds ht.1 he
  have hne : roundInt hi.val = roundInt lo.val → hi.val = lo.val := hc.alone _ hlo hi
  have hloop (fuel : Nat) (hf : fuel ≥ size lo.val hi.val (stride lo hi k) inclusive + 1) :=
    hc.countFrom_elements ht.1 (natAbs_stride lo hi k) hel (show hi.val = hi.val from rfl) hlo hf
  refine ⟨⟨size lo.val hi.val (stride lo hi k) inclusive + 1, fun fuel hf => ?_⟩, ?_, fun x => ?_⟩
  · rw [materialize_eq (resolveStep_ok ht hne), ofI64_roundInt, ofI64_roundInt, hloop fuel hf]
    rfl
  · rintro rfl s hk
    obtain rfl : k = some s := hk
    have hs : Datum.ofI64 s = .ofInt (roundInt (stride lo hi (some s))) := ofI64_roundInt s
    refine ⟨size lo.val hi.val (stride lo hi (some s)) false + 1, fun fuel hf => ?_⟩
    rw [range_eq (hs ▸ beq_zero_step ht.1), hs, ofI64_roundInt, ofI64_roundInt, hloop fuel hf]
    rfl
  · rw [contains_iff hne, hc.kept hel hlo]
    constructor
    · rintro ⟨hin, hside, hw⟩
      exact hu.mem_of_contains ht hlo x hin hside hw
    · intro hx
      rw [hc.kept hel hx]
      exact ⟨hc.inside_round rfl ht.1 hel hx, ((mem_elements_iff ht.1).mp hx).2.1,
        fun _ => hu.whole ht.1 hlo x hx⟩

end Bounds

theorem hasNext_self (hi : I64) (step : Datum) :
    rangeHasNext (.ofI64 hi) (.ofI64 hi) step false = false := by
  rw [rangeHasNext, ofI64_near]
  simp [Datum.lt]

theorem patternContains_self (x hi : I64) (stepV : Option Datum) :
    rangePatternContains (.ofI64 x) (.ofI64 hi) (.ofI64 hi) stepV false = false := by
  rw [patternContains_eq, rangeHasNext, ofI64_near, ofI64_near]
  split <;> simp [Datum.le, Datum.lt, Datum.beq] <;> omega

theorem resolveStep_self {k : Option I64} (hi : I64) (hk : ∀ s ∈ k, s.val ≠ 0) :
    ∃ step, resolveStep (.ofI64 hi) (.ofI64 hi) (k.map .ofI64) = .ok step := by
  cases k with
  | none => exact ⟨_, rfl⟩
  | some s =>
    have hbeq : (Datum.ofI64 hi).beq (.ofI64 hi) = true := by
      rw [ofI64_near, Datum.beq, beq_self_eq_true]
    refine ⟨.ofI64 s, ?_⟩
    rw [Option.map_some, resolveStep, ofI64_roundInt s, beq_zero_step (hk s rfl), hbeq]
    rfl

theorem exact_of_empty (hk : stride hi hi k ≠ 0) : Exact hi hi k false := by
  have hempty : intValues hi hi k false = [] := by
    rw [intValues, elements_empty hk, List.map_nil]
  have hloop (step : Datum) (fuel : Nat) (hf : fuel ≥ 1) :
      countFrom (rangeHasNext · (.ofI64 hi) step false) step true fuel (.ofI64 hi) = some [] := by
    obtain ⟨fuel, rfl⟩ := Nat.exists_eq_add_of_le' hf
    rw [countFrom, hasNext_self, if_neg (by decide)]
  have hne : ∀ s ∈ k, s.val ≠ 0 := by
    rintro s rfl
    exact hk
  refine ⟨⟨1, fun fuel hf => ?_⟩, fun _ s hs => ⟨1, fun fuel hf => ?_⟩, fun x => ?_⟩
  · obtain ⟨step, hstep⟩ := resolveStep_self hi hne
    rw [materialize_eq hstep, hloop step fuel hf, hempty]
    rfl
  · have hz := beq_zero_step (hne s hs)
    rw [← ofI64_roundInt] at hz
    rw [range_eq hz, hloop _ fuel hf, hempty]
    rfl
  · rw [patternContains_self, elements_empty hk]
    simp

def Representable (d : Datum) : Prop := ∀ u, d = .fin u → near u = u

theorem representable_round (n : Int) : Representable (round n 1) := by
  intro u hu
  rw [Datum.round] at hu
  split at hu
  · obtain rfl : near n = u := Datum.fin.inj hu
    exact near_near n
  · cases hu

theorem representable_counter (hi : Representable i) (j : Nat) :
    Representable (counter step i j) := by
  induction j with
  | zero => exact hi
  | succ j ih =>
    rw [counter]
    intro u hu
    cases hc : counter step i j <;> cases step <;> rw [hc] at hu <;> simp only [Datum.add] at hu
    case fin.fin m n => exact representable_round (m + n) u hu
    all_goals first | cases hu | split at hu <;> cases hu

theorem counter_of_int (h : rangeCounterValue d true = .int n) : d = .ofInt n.val := by
  unfold rangeCounterValue at h
  split at h
  case h_2 => cases h
  case h_1 m _ hm =>
    obtain rfl : m = n := Scalar.int.inj h
    cases d with
    | nan => cases hm
    | inf s => cases hm
    | fin u =>
      simp only [Scalar.asIntExact, Datum.fract, Datum.isFinite, Datum.toI64, Bool.true_and,
        Datum.beq] at hm
      split at hm
      case isFalse => cases hm
      case isTrue hu =>
        obtain ⟨⟨hz, hl⟩, hh⟩ := by simpa only [Bool.and_eq_true, beq_iff_eq] using hu
        obtain ⟨q, rfl⟩ := Int.dvd_iff_tmod_eq_zero.mpr hz
        rw [Int.mul_comm one, ← Datum.ofInt, Datum.ofInt_le, decide_eq_true_eq] at hl
        rw [Int.mul_comm one, ← Datum.ofInt, ofInt_lt, decide_eq_true_eq] at hh
        rw [Int.mul_tdiv_cancel_left q (Int.ne_of_gt Datum.one_pos), Option.some.injEq] at hm
        rw [← hm, I64.val_sat hl hh, Datum.ofInt, Int.mul_comm]

theorem materialize_error {k : Option I64}
    (h : resolveStep (.ofI64 lo) (.ofI64 hi) (k.map .ofI64) = .error e) :
    materializeRangeStepped fuel (.int lo) (.int hi) inclusive (k.map .int) =
      some (.error e) := by
  cases k with
  | none => cases h
  | some k =>
    rw [Option.map_some] at h
    simp [materializeRangeStepped, Scalar.asF64, h]

theorem Exact.counters (h : Exact lo hi k inclusive) :
    ∃ step, resolveStep (.ofI64 lo) (.ofI64 hi) (k.map .ofI64) = .ok step ∧
      (∀ j < size lo.val hi.val (stride lo hi k) inclusive,
        counter step (.ofI64 lo) j =
          .ofInt (I64.sat (lo.val + j * stride lo hi k)).val) ∧
      rangeHasNext (counter step (.ofI64 lo) (size lo.val hi.val (stride lo hi k) inclusive))
        (.ofI64 hi) step inclusive = false := by
  obtain ⟨n, hn⟩ := h.materialized
  have hn := hn n (Nat.le_refl n)
  cases hstep : resolveStep (.ofI64 lo) (.ofI64 hi) (k.map .ofI64) with
  | error e =>
    rw [materialize_error hstep] at hn
    cases hn
  | ok step =>
    rw [materialize_eq hstep] at hn
    obtain ⟨vs, hvs, hok⟩ := Option.map_eq_some_iff.mp hn
    obtain ⟨hvalues, hstop⟩ := countFrom_inv hvs
    obtain rfl : vs = intValues lo hi k inclusive := Except.ok.inj hok
    have hlen : (intValues lo hi k inclusive).length =
        size lo.val hi.val (stride lo hi k) inclusive := by
      rw [intValues, List.length_map, size]
    rw [hlen] at hvalues hstop
    refine ⟨step, rfl, fun j hj => ?_, hstop⟩
    rw [intValues, elements_eq, List.map_map] at hvalues
    exact counter_of_int (List.map_inj_left.mp hvalues j (List.mem_range.mpr hj)).symm

section Necessary

variable {lo hi : I64} {k : Option I64} {inclusive : Bool}
  (h : Exact lo hi k inclusive) (hk : stride lo hi k ≠ 0)

include h hk in
theorem Exact.kept (he : e ∈ elements lo.val hi.val (stride lo hi k) inclusive) :
    roundInt e = e := by
  obtain ⟨step, -, hcount, -⟩ := h.counters
  obtain ⟨j, rfl, -⟩ := (mem_elements hk).mp he
  have hbounds := element_bounds hk he
  have hj := hcount j (lt_of_mem hk he)
  rw [I64.val_sat hbounds.1 hbounds.2] at hj
  have hrep : near ((lo.val + j * stride lo hi k) * one) = (lo.val + j * stride lo hi k) * one :=
    representable_counter (representable_round _) j _ (hj.trans rfl)
  rw [near_units] at hrep
  exact units_inj_int hrep

include h hk in
theorem Exact.alone (he : e ∈ elements lo.val hi.val (stride lo hi k) inclusive) : Alone e := by
  intro x hx
  have hbounds := element_bounds hk he
  have hsat : (I64.sat e).val = e := I64.val_sat hbounds.1 hbounds.2
  have hsame : Datum.ofI64 x = .ofI64 (.sat e) := by
    rw [ofI64_roundInt, ofI64_roundInt, hsat, hx]
  have hmem : x.val ∈ elements lo.val hi.val (stride lo hi k) inclusive := by
    rw [← h.matched, hsame, h.matched, hsat]
    exact he
  rw [← h.kept hk hmem, hx, h.kept hk he]

include h hk in
theorem Exact.counters_exact (hlo : lo.val ∈ elements lo.val hi.val (stride lo hi k) inclusive) :
    (∀ j < size lo.val hi.val (stride lo hi k) inclusive,
      counter (.ofInt (roundInt (stride lo hi k))) (.ofI64 lo) j =
        .ofInt (lo.val + j * stride lo hi k)) ∧
      rangeHasNext (counter (.ofInt (roundInt (stride lo hi k))) (.ofI64 lo)
        (size lo.val hi.val (stride lo hi k) inclusive)) (.ofI64 hi)
          (.ofInt (roundInt (stride lo hi k))) inclusive = false := by
  obtain ⟨step, hstep, hcount, hstop⟩ := h.counters
  obtain rfl := (resolveStep_getD hstep).trans (resolved_step (h.alone hk hlo hi))
  refine ⟨fun j hj => ?_, hstop⟩
  have hbounds := element_bounds hk (mem_of_lt hk hj)
  rw [hcount j hj, I64.val_sat hbounds.1 hbounds.2]

theorem roundInt_bottom : roundInt (-2 ^ 63 + 1) = -2 ^ 63 := by decide +kernel

theorem Alone.eq_of_round (ha : Alone e) (he : -2 ^ 63 ≤ e ∧ e < 2 ^ 63) (hkept : roundInt e = e)
    (hx : roundInt x = e) : x = e := by
  have hup : x < 2 ^ 63 := by
    by_contra hge
    have hmono := roundInt_mono (Int.not_lt.mp hge)
    rw [roundInt_two_pow] at hmono
    omega
  have hlow : -2 ^ 63 ≤ x := by
    by_contra hlt
    have hmono := roundInt_mono (show x ≤ -2 ^ 63 by omega)
    rw [roundInt_neg_two_pow] at hmono
    have hbottom : (-2 ^ 63 + 1 : Int) = e :=
      ha ⟨-2 ^ 63 + 1, by decide, by decide⟩ (by rw [roundInt_bottom]; omega)
    omega
  exact ha ⟨x, hlow, hup⟩ (hx.trans hkept.symm)

include h hk in
theorem counted_of_exact : Counted lo.val hi.val (stride lo hi k) inclusive := by
  have hfirst : ∀ e ∈ elements lo.val hi.val (stride lo hi k) inclusive,
      lo.val ∈ elements lo.val hi.val (stride lo hi k) inclusive := by
    intro e he
    obtain ⟨j, rfl, -⟩ := (mem_elements hk).mp he
    have hmem := mem_of_lt (j := 0) hk (Nat.zero_lt_of_lt (lt_of_mem hk he))
    rwa [Int.natCast_zero, Int.zero_mul, Int.add_zero] at hmem
  have hsum : ∀ e ∈ elements lo.val hi.val (stride lo hi k) inclusive,
      (e + roundInt (stride lo hi k)).natAbs ≤ 2 ^ 66 := by
    intro e he
    have hbounds := element_bounds hk he
    have hstep := natAbs_roundInt (e := 63) (natAbs_stride lo hi k)
    omega
  refine ⟨fun e he => h.alone hk he, fun e he hnext => ?_, fun e he hlast => ?_⟩
  · obtain ⟨hcount, -⟩ := h.counters_exact hk (hfirst e he)
    obtain ⟨j, rfl, -⟩ := (mem_elements hk).mp he
    have hj := lt_of_mem hk he
    have hsucc : lo.val + j * stride lo hi k + stride lo hi k =
        lo.val + (j + 1 : Nat) * stride lo hi k := by
      push_cast
      ring
    rw [hsucc] at hnext
    have hcounter := hcount (j + 1) (lt_of_mem hk hnext)
    rw [counter, hcount j hj, ofInt_add (hsum _ he), ofInt_inj] at hcounter
    have heq := (h.alone hk hnext).eq_of_round (element_bounds hk hnext) (h.kept hk hnext) hcounter
    omega
  · obtain ⟨hcount, hstop⟩ := h.counters_exact hk (hfirst e he)
    obtain ⟨j, rfl, -⟩ := (mem_elements hk).mp he
    have hj := lt_of_mem hk he
    have hsize : size lo.val hi.val (stride lo hi k) inclusive = j + 1 := by
      by_contra hne
      refine hlast ?_
      have hmem : lo.val + (j + 1 : Nat) * stride lo hi k ∈
          elements lo.val hi.val (stride lo hi k) inclusive := mem_of_lt hk (by omega)
      rwa [Int.natCast_succ, Int.add_mul, Int.one_mul, ← Int.add_assoc] at hmem
    rw [hsize, counter, hcount j hj, ofInt_add (hsum _ he), ofI64_roundInt, hasNext_ofInt,
      decide_eq_false_iff_not, inside_round_step] at hstop
    exact hstop

end Necessary

/-- A range whose counting and distances are not spoilt by rounding is exact, and an exact range
is counted so. -/
theorem range_exact (ht : Towards lo.val hi.val (stride lo hi k)) :
    (Unrounded lo.val hi.val (stride lo hi k) inclusive → Exact lo hi k inclusive) ∧
      (Exact lo hi k inclusive → Counted lo.val hi.val (stride lo hi k) inclusive) := by
  refine ⟨fun hu => ?_, fun h => counted_of_exact h ht.1⟩
  by_cases hlo : lo.val ∈ elements lo.val hi.val (stride lo hi k) inclusive
  · exact exact_of_unrounded hu ht hlo
  · obtain ⟨hval, rfl⟩ : lo.val = hi.val ∧ inclusive = false := by
      have hout : ¬Inside hi.val (stride lo hi k) inclusive lo.val := fun hin => by
        refine hlo ((mem_elements_iff ht.1).mpr ⟨hin, ?_, by simp⟩)
        unfold Onward
        split <;> exact le_refl _
      have hon := ht.onward
      unfold Inside at hout
      unfold Onward at hon
      split at hon
      · next h =>
        rw [if_pos h] at hout
        cases inclusive with
        | true => exact absurd hon hout
        | false => exact ⟨Int.le_antisymm hon (Int.not_lt.mp hout), rfl⟩
      · next h =>
        rw [if_neg h] at hout
        cases inclusive with
        | true => exact absurd hon hout
        | false => exact ⟨Int.le_antisymm (Int.not_lt.mp hout) hon, rfl⟩
    obtain rfl : lo = hi := I64.ext hval
    exact exact_of_empty ht.1

theorem alone_small (he : e.natAbs < 2 ^ 53) : Alone e := by
  intro x hx
  rw [roundInt_small (Nat.le_of_lt he)] at hx
  rcases Int.lt_trichotomy x.val e with h | h | h
  · have hmono := roundInt_mono (show x.val ≤ e - 1 by omega)
    rw [roundInt_small (n := e - 1) (by omega)] at hmono
    omega
  · exact h
  · have hmono := roundInt_mono (show e + 1 ≤ x.val by omega)
    rw [roundInt_small (n := e + 1) (by omega)] at hmono
    omega

theorem unrounded_small {lo hi k : Int} (hk : k ≠ 0) (hk' : k.natAbs ≤ 2 ^ 53)
    (hlo : lo.natAbs < 2 ^ 53) (hlast : (last hi k inclusive).natAbs < 2 ^ 53)
    (hspan : k.natAbs = 1 ∨ (last hi k inclusive - lo).natAbs ≤ 2 ^ 53) :
    Unrounded lo hi k inclusive := by
  have hhi : roundInt hi = hi := by
    refine roundInt_small ?_
    unfold last at hlast
    rcases Int.lt_or_gt_of_ne hk with h | h
    · rw [Int.sign_eq_neg_one_of_neg h] at hlast
      split at hlast <;> omega
    · rw [Int.sign_eq_one_of_pos h] at hlast
      split at hlast <;> omega
  have hel : ∀ e ∈ elements lo hi k inclusive, e.natAbs < 2 ^ 53 := by
    intro e he
    obtain ⟨hin, hside, -⟩ := (mem_elements_iff hk).mp he
    have hon := (inside_iff hk).mp hin
    unfold Onward at hon hside
    split at hon <;> simp_all only [if_true, if_false] <;> omega
  refine ⟨⟨fun e he => alone_small (hel e he), fun _ _ _ => roundInt_small hk', ?_⟩, ?_⟩
  · intro e he hnext
    have hpast : ¬Onward k (e + k) (last hi k inclusive) := fun hon => by
      obtain ⟨j, rfl, -⟩ := (mem_elements hk).mp he
      refine hnext ((mem_elements hk).mpr ⟨j + 1, ?_, (inside_iff hk).mpr hon⟩)
      push_cast
      ring
    have hsmall := hel e he
    rw [roundInt_small hk', hhi, inside_iff hk]
    unfold Onward at hpast ⊢
    split at hpast
    · next h =>
      have hmono := roundInt_mono (Int.add_one_le_of_lt (Int.not_le.mp hpast))
      rw [roundInt_small (n := last hi k inclusive + 1) (by omega)] at hmono
      rw [if_pos h]
      omega
    · next h =>
      have hmono := roundInt_mono (Int.le_sub_one_of_lt (Int.not_le.mp hpast))
      rw [roundInt_small (n := last hi k inclusive - 1) (by omega)] at hmono
      rw [if_neg h]
      omega
  · rw [hhi]
    exact hspan.imp_right .inl

/-- A range with distances up to `2 ^ 53`, and one with a far bound and a far step. -/
theorem range_exact_wide :
    Exact (.sat (-2 ^ 52)) (.sat (2 ^ 52 + 1)) (some (.sat 2)) false ∧
      Exact (.sat 0) (.sat (2 ^ 60)) (some (.sat (2 ^ 60))) false := by
  constructor
  · have ht : Towards (I64.sat (-2 ^ 52)).val (I64.sat (2 ^ 52 + 1)).val
        (stride (.sat (-2 ^ 52)) (.sat (2 ^ 52 + 1)) (some (.sat 2))) := by decide
    exact (range_exact ht).1
      (unrounded_small (by decide) (by decide) (by decide) (by decide) (.inr (by decide)))
  · have ht : Towards (I64.sat 0).val (I64.sat (2 ^ 60)).val
        (stride (.sat 0) (.sat (2 ^ 60)) (some (.sat (2 ^ 60)))) := by decide
    have hone : elements 0 (2 ^ 60) (2 ^ 60) false = [0] := by decide
    have hround : roundInt (2 ^ 60) = 2 ^ 60 := roundInt_two_pow 60
    refine (range_exact ht).1 ⟨⟨?_, ?_, ?_⟩, .inr (.inr ⟨by decide, ?_, ?_⟩)⟩
    · intro e he
      obtain rfl : e = 0 := List.mem_singleton.mp (hone ▸ he)
      exact alone_small (by decide)
    · intro e he hnext
      exact hround
    · intro e he hnext
      obtain rfl : e = 0 := List.mem_singleton.mp (hone ▸ he)
      change ¬Inside (roundInt (2 ^ 60)) (2 ^ 60) false (roundInt (0 + roundInt (2 ^ 60)))
      rw [hround, Int.zero_add, hround]
      decide
    · intro e he
      obtain rfl : e = 0 := List.mem_singleton.mp (hone ▸ he)
      change roundInt (0 + roundInt (2 ^ 60)) = 0 + roundInt (2 ^ 60)
      rw [hround, Int.zero_add, hround]
    · intro n hn _ _
      change roundInt (n - 0) = n - 0
      rwa [Int.sub_zero]

theorem countFrom_stuck (h : hasNext i = true) (hi : i.add step = i) (fuel : Nat) :
    countFrom hasNext step y fuel i = none := by
  induction fuel with
  | zero => rfl
  | succ fuel ih => rw [countFrom, if_pos h, hi, ih, Option.map_none]

/-- From `2 ^ 53` on, adding one is lost and the loop never ends. -/
theorem range_stuck : Towards (2 ^ 53) (2 ^ 53 + 2) 1 ∧
    (∀ fuel, materializeRangeStepped fuel (.int (.sat (2 ^ 53))) (.int (.sat (2 ^ 53 + 2))) false
      none = none) ∧
    ¬Exact (.sat (2 ^ 53)) (.sat (2 ^ 53 + 2)) none false := by
  have hstuck (fuel : Nat) : materializeRangeStepped fuel (.int (.sat (2 ^ 53)))
      (.int (.sat (2 ^ 53 + 2))) false none = none := by
    have hstep : resolveStep (.ofI64 (.sat (2 ^ 53))) (.ofI64 (.sat (2 ^ 53 + 2)))
        ((none : Option I64).map .ofI64) = .ok (.ofInt 1) := by decide +kernel
    refine (materialize_eq hstep).trans ?_
    rw [countFrom_stuck (by decide +kernel) (by decide +kernel), Option.map_none]
  refine ⟨by decide, hstuck, fun h => ?_⟩
  obtain ⟨n, hn⟩ := h.materialized
  have := hn n (Nat.le_refl n)
  rw [Option.map_none, hstuck] at this
  cases this

end AScript.Runtime
