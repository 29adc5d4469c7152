import AScript.Runtime.Range

namespace AScript.Runtime

open AScript.Lib AScript.Lib.Datum

theorem mem_elements (hk : k ≠ 0) :
    x ∈ elements lo hi k inclusive ↔ ∃ j : Nat, x = lo + j * k ∧ Inside hi k inclusive x := by
  have habs : (0 : Int) < k.natAbs := by omega
  have hj (j : Nat) : j < ((if inclusive then (if 0 < k then hi - lo else lo - hi)
      else (if 0 < k then hi - lo else lo - hi) - 1) / (k.natAbs : Int) + 1).toNat ↔
        Inside hi k inclusive (lo + j * k) := by
    rw [Int.lt_toNat, Int.lt_add_one_iff, Int.le_ediv_iff_mul_le habs]
    unfold Inside
    rcases Int.lt_or_gt_of_ne hk with h | h
    · have hneg : ((k.natAbs : Nat) : Int) = -k := by omega
      have hmul : (j : Int) * -k = -(j * k) := Int.mul_neg ..
      rw [hneg, hmul]
      cases inclusive <;> simp only [Int.not_lt.mpr (Int.le_of_lt h)] <;> grind
    · have hpos : ((k.natAbs : Nat) : Int) = k := by omega
      rw [hpos]
      cases inclusive <;> simp [h] <;> omega
  simp only [elements, List.mem_map, List.mem_range]
  constructor
  · rintro ⟨j, hlt, rfl⟩
    exact ⟨j, rfl, (hj j).mp hlt⟩
  · rintro ⟨j, rfl, hin⟩
    exact ⟨j, (hj j).mpr hin, rfl⟩

def size (lo hi k : Int) (inclusive : Bool) : Nat := (elements lo hi k inclusive).length

theorem elements_eq (lo hi k : Int) (inclusive : Bool) :
    elements lo hi k inclusive =
      (List.range (size lo hi k inclusive)).map fun (j : Nat) => lo + j * k := by
  rw [size, elements, List.length_map, List.length_range]

theorem lt_size (hk : k ≠ 0) (j : Nat) :
    j < size lo hi k inclusive ↔ Inside hi k inclusive (lo + j * k) := by
  constructor
  · intro h
    have hm : lo + j * k ∈ elements lo hi k inclusive := by
      rw [elements_eq]
      exact List.mem_map.mpr ⟨j, List.mem_range.mpr h, rfl⟩
    obtain ⟨j', he, hin⟩ := (mem_elements hk).mp hm
    exact hin
  · intro h
    have hm := (mem_elements hk).mpr ⟨j, rfl, h⟩
    rw [elements_eq] at hm
    obtain ⟨j', hj', he⟩ := List.mem_map.mp hm
    have : (j' : Int) = j := Int.eq_of_mul_eq_mul_right hk (by omega)
    rw [List.mem_range] at hj'
    omega

def counter (step i : Datum) : Nat → Datum
  | 0 => i
  | j + 1 => (counter step i j).add step

@[simp] theorem counter_zero (step i : Datum) : counter step i 0 = i := rfl

theorem counter_succ (step i : Datum) (j : Nat) :
    counter step i (j + 1) = counter step (i.add step) j := by
  induction j with
  | zero => rfl
  | succ j ih => rw [counter, ih, counter]

theorem countFrom_run (hnext : ∀ j < n, hasNext (counter step i j) = true)
    (hstop : hasNext (counter step i n) = false) (hf : n < fuel) :
    countFrom hasNext step y fuel i =
      some ((List.range n).map fun j => rangeCounterValue (counter step i j) y) := by
  induction n generalizing i fuel with
  | zero =>
    obtain ⟨fuel, rfl⟩ := Nat.exists_eq_add_of_lt hf
    rw [counter_zero] at hstop
    simp [countFrom, hstop]
  | succ n ih =>
    obtain ⟨fuel, rfl⟩ := Nat.exists_eq_add_of_lt hf
    have h0 : hasNext i = true := hnext 0 (by omega)
    have hrest := @ih (n + 1 + fuel) (i.add step)
      (fun j hj => by rw [← counter_succ]; exact hnext (j + 1) (by omega))
      (by rwa [← counter_succ]) (by omega)
    rw [show n + 1 + fuel + 1 = (n + 1 + fuel) + 1 from rfl, countFrom, if_pos h0, hrest,
      List.range_succ_eq_map]
    simp [← counter_succ, Function.comp_def]

theorem countFrom_inv (h : countFrom hasNext step y fuel i = some vs) :
    vs = (List.range vs.length).map (fun j => rangeCounterValue (counter step i j) y) ∧
      hasNext (counter step i vs.length) = false := by
  induction fuel generalizing i vs with
  | zero => cases h
  | succ fuel ih =>
    rw [countFrom] at h
    split at h
    · obtain ⟨rest, hrest, rfl⟩ := Option.map_eq_some_iff.mp h
      obtain ⟨hvalues, hstop⟩ := ih hrest
      refine ⟨?_, by rwa [List.length_cons, counter_succ]⟩
      rw [List.length_cons, List.range_succ_eq_map, List.map_cons, List.map_map]
      refine List.cons_eq_cons.mpr ⟨rfl, ?_⟩
      rw [hvalues]
      simp [counter_succ, Function.comp_def]
    · next hno =>
      cases h
      exact ⟨rfl, by simpa using hno⟩

def last (hi k : Int) (inclusive : Bool) : Int := if inclusive then hi else hi - k.sign

def Onward (k x y : Int) : Prop := if 0 < k then x ≤ y else y ≤ x

instance : Decidable (Onward k x y) := inferInstanceAs (Decidable (if 0 < k then _ else _))

theorem inside_iff (hk : k ≠ 0) : Inside hi k inclusive x ↔ Onward k x (last hi k inclusive) := by
  unfold Inside last Onward
  rcases Int.lt_or_gt_of_ne hk with h | h
  · have hneg : ¬0 < k := by omega
    rw [if_neg hneg, if_neg hneg, Int.sign_eq_neg_one_of_neg h]
    split <;> omega
  · rw [if_pos h, if_pos h, Int.sign_eq_one_of_pos h]
    split <;> omega

theorem Onward.trans (h : Onward k x y) (h' : Onward k y z) : Onward k x z := by
  unfold Onward at *
  split <;> simp_all only [if_true, if_false]
  · exact Int.le_trans h h'
  · exact Int.le_trans h' h

theorem Onward.antisymm (h : Onward k x y) (h' : Onward k y x) : x = y := by
  unfold Onward at *
  split at h <;> simp_all only [if_true, if_false] <;> omega

theorem onward_total (k x y : Int) : Onward k x y ∨ Onward k y x := by
  unfold Onward
  split <;> omega

theorem Onward.inside (hk : k ≠ 0) (h : Onward k x y) (hy : Inside hi k inclusive y) :
    Inside hi k inclusive x :=
  (inside_iff hk).mpr (h.trans ((inside_iff hk).mp hy))

theorem Onward.round (h : Onward k x y) : Onward k (roundInt x) (roundInt y) := by
  unfold Onward at *
  split at h
  · rw [if_pos ‹_›]
    exact roundInt_mono h
  · rw [if_neg ‹_›]
    exact roundInt_mono h

theorem Onward.sub (hk : k ≠ 0) : Onward k x y ↔ 0 ≤ k.sign * (y - x) := by
  unfold Onward
  rcases Int.lt_or_gt_of_ne hk with h | h
  · rw [if_neg (by omega), Int.sign_eq_neg_one_of_neg h]
    omega
  · rw [if_pos h, Int.sign_eq_one_of_pos h]
    omega

theorem Inside.round (hk : k ≠ 0) (hx : Inside (roundInt hi) k inclusive (roundInt x))
    (hne : inclusive = true → roundInt x = roundInt hi → x = hi) : Inside hi k inclusive x := by
  by_contra hno
  unfold Inside at hx hno
  rcases Int.lt_or_gt_of_ne hk with h | h
  · rw [if_neg (by omega)] at hx hno
    cases inclusive with
    | true =>
      simp only [if_true] at hx hno
      have hle := roundInt_mono (show x ≤ hi by omega)
      exact hno (hne rfl (by omega)).ge
    | false =>
      simp only [Bool.false_eq_true, if_false] at hx hno
      have hle := roundInt_mono (show x ≤ hi by omega)
      omega
  · rw [if_pos h] at hx hno
    cases inclusive with
    | true =>
      simp only [if_true] at hx hno
      have hle := roundInt_mono (show hi ≤ x by omega)
      exact hno (hne rfl (by omega)).le
    | false =>
      simp only [Bool.false_eq_true, if_false] at hx hno
      have hle := roundInt_mono (show hi ≤ x by omega)
      omega

theorem Inside.to_round (hx : Inside hi k inclusive x)
    (hne : roundInt x = roundInt hi → x = hi) :
    Inside (roundInt hi) k inclusive (roundInt x) := by
  unfold Inside at *
  by_cases h : 0 < k
  · rw [if_pos h] at *
    cases inclusive with
    | true => exact roundInt_mono (by simpa using hx)
    | false =>
      simp only [Bool.false_eq_true, if_false] at hx ⊢
      have hle := roundInt_mono (Int.le_of_lt hx)
      exact lt_of_le_of_ne hle fun heq => Int.ne_of_lt hx (hne heq)
  · rw [if_neg h] at *
    cases inclusive with
    | true => exact roundInt_mono (by simpa using hx)
    | false =>
      simp only [Bool.false_eq_true, if_false] at hx ⊢
      have hle := roundInt_mono (Int.le_of_lt hx)
      exact lt_of_le_of_ne hle fun heq => Int.ne_of_lt hx (hne heq.symm).symm

theorem inside_round_step : Inside hi (roundInt k) inclusive x ↔ Inside hi k inclusive x := by
  simp only [Inside, roundInt_pos]

theorem mem_elements_iff (hk : k ≠ 0) : x ∈ elements lo hi k inclusive ↔
    Inside hi k inclusive x ∧ Onward k lo x ∧ k ∣ x - lo := by
  rw [mem_elements hk]
  constructor
  · rintro ⟨j, rfl, hin⟩
    refine ⟨hin, (Onward.sub hk).mpr ?_, ⟨j, by ring⟩⟩
    rw [add_sub_cancel_left, Int.mul_left_comm, Int.sign_mul_self_eq_natAbs]
    exact Int.mul_nonneg (Int.natCast_nonneg j) (Int.natCast_nonneg _)
  · rintro ⟨hin, hside, c, hc⟩
    have hside := (Onward.sub hk).mp hside
    rw [hc, ← Int.mul_assoc, Int.sign_mul_self_eq_natAbs] at hside
    have hc0 : 0 ≤ c := Int.nonneg_of_mul_nonneg_right hside (by omega)
    refine ⟨c.toNat, ?_, hin⟩
    rw [Int.toNat_of_nonneg hc0, Int.mul_comm]
    omega

theorem elements_empty (hk : k ≠ 0) : elements hi hi k false = [] := by
  rw [List.eq_nil_iff_forall_not_mem]
  intro x hx
  obtain ⟨hin, hside, -⟩ := (mem_elements_iff hk).mp hx
  unfold Inside at hin
  unfold Onward at hside
  split at hside <;> simp_all <;> omega

theorem mem_of_lt (hk : k ≠ 0) {j : Nat} (hj : j < size lo hi k inclusive) :
    lo + j * k ∈ elements lo hi k inclusive :=
  (mem_elements hk).mpr ⟨j, rfl, (lt_size hk j).mp hj⟩

theorem lt_of_mem (hk : k ≠ 0) {j : Nat} (h : lo + j * k ∈ elements lo hi k inclusive) :
    j < size lo hi k inclusive :=
  (lt_size hk j).mpr ((mem_elements_iff hk).mp h).1

theorem hasNext_ofInt (x hi k : Int) (inclusive : Bool) :
    rangeHasNext (.ofInt x) (.ofInt hi) (.ofInt k) inclusive =
      decide (Inside hi k inclusive x) := by
  have hzero : zero.lt (.ofInt k) = decide (0 < k) := by
    have h := Datum.ofInt_lt 0 k
    rwa [ofInt, Int.zero_mul] at h
  rw [rangeHasNext, hzero, Datum.ofInt_le, Datum.ofInt_le, ofInt_lt, ofInt_lt]
  unfold Inside
  by_cases h : 0 < k <;> cases inclusive <;> simp [h]

theorem counterValue_int (h : -2 ^ 63 ≤ x) (h' : x < 2 ^ 63) :
    rangeCounterValue (.ofInt x) true = .int (.sat x) := by
  have hfract : (Datum.ofInt x).fract = .fin 0 := by
    rw [Datum.ofInt, Datum.fract, Int.mul_tmod_left]
  have hdiv : (Datum.ofInt x).toI64 = .sat x := by
    rw [Datum.ofInt, Datum.toI64, Int.mul_tdiv_cancel x (Int.ne_of_gt Datum.one_pos)]
  have hexact : (Scalar.float (.ofInt x)).asIntExact = some (.sat x) := by
    simp only [Scalar.asIntExact, hfract, hdiv, Datum.ofInt_le, ofInt_lt, h, h']
    rfl
  simp only [rangeCounterValue, hexact]

def isWhole (q : Datum) : Bool := zero.le q && q.fract.beq zero

theorem isWhole_fin (h : 0 ≤ r) : isWhole (.fin r) = decide (one ∣ r) := by
  have hle : zero.le (.fin r) = true := by
    simp only [zero, Datum.le, Datum.lt, Datum.beq, Bool.or_eq_true, decide_eq_true_eq, beq_iff_eq]
    omega
  rw [isWhole, hle, Bool.true_and, Datum.fract, zero, Datum.beq, Bool.eq_iff_iff, beq_iff_eq,
    decide_eq_true_eq, Int.dvd_iff_tmod_eq_zero]

theorem isWhole_div (hk : k ≠ 0) (hd : d.natAbs ≤ 2 ^ 66) (hs : 0 ≤ k.sign * d) :
    isWhole ((Datum.ofInt d).div (.ofInt k)) =
      decide (2 ^ 1074 ∣ roundUnits (d.natAbs * 2 ^ 1074) k.natAbs) := by
  have hsign : 0 ≤ k.sign * (d * one) := by
    rw [← Int.mul_assoc]
    exact Int.mul_nonneg hs (Int.le_of_lt Datum.one_pos)
  rw [ofInt, ofInt, div_fin hk (natAbs_units hd) (by decide), if_neg (Int.not_lt.mpr hsign),
    isWhole_fin (by omega), decide_eq_decide, ← Int.natAbs_dvd_natAbs, one, natAbs_two_pow,
    Int.natAbs_natCast, ← one, natAbs_mul_one]

theorem isWhole_of_dvd (hk : k ≠ 0) (hd : d.natAbs ≤ 2 ^ 66) (hs : 0 ≤ k.sign * d) (h : k ∣ d) :
    isWhole ((Datum.ofInt d).div (.ofInt k)) = true := by
  obtain ⟨j, hj⟩ := Int.natAbs_dvd_natAbs.mpr h
  rw [isWhole_div hk hd hs, decide_eq_true_eq, hj]
  generalize 1074 = u
  have hscale := roundUnits_scale (j * 2 ^ u) 1 (Int.natAbs_pos.mpr hk)
  rw [Nat.one_mul, Nat.mul_comm, ← Nat.mul_assoc] at hscale
  rw [hscale]
  exact dvd_roundUnits j u

end AScript.Runtime
