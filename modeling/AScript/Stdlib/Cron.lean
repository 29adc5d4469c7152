import AScript.Lib.Checked
import AScript.Stdlib.Semver
import Mathlib.Tactic.Ring

namespace AScript.Stdlib.Cron

open AScript.Stdlib.Semver (Text trim splitOnce splitWhitespace quoted digitsValue)
open AScript.Lib (bind_ok)

abbrev Mask := BitVec 64

/-- `1u64 << v` is in range for the domains below. -/
def setBit (bits : Mask) (v : Nat) : Mask := bits ||| 1#64 <<< v

theorem getLsbD_setBit (bits : Mask) (hv : v < 64) (j : Nat) :
    (setBit bits v).getLsbD j = (bits.getLsbD j || decide (j = v)) := by
  by_cases hj : j < 64
  · by_cases h : j = v
    · simp [setBit, h, hv]
    · by_cases h' : j < v
      · simp [setBit, h, h']
      · have : j - v ≠ 0 := by omega
        simp [setBit, h, h', this]
  · have h : j ≠ v := by omega
    simp [setBit, h, BitVec.getLsbD_of_ge _ _ (Nat.le_of_not_lt hj)]

/-- The domain of a field, and its names. -/
structure FieldSpec where
  min : Nat
  max : Nat
  names : List (String × Nat)
  max_lt : max < 64

def monthNames : List (String × Nat) :=
  [("jan", 1), ("feb", 2), ("mar", 3), ("apr", 4), ("may", 5), ("jun", 6),
    ("jul", 7), ("aug", 8), ("sep", 9), ("oct", 10), ("nov", 11), ("dec", 12)]

def dowNames : List (String × Nat) :=
  [("sun", 0), ("mon", 1), ("tue", 2), ("wed", 3), ("thu", 4), ("fri", 5), ("sat", 6)]

def minuteSpec : FieldSpec := ⟨0, 59, [], by decide⟩

def hourSpec : FieldSpec := ⟨0, 23, [], by decide⟩

def domSpec : FieldSpec := ⟨1, 31, [], by decide⟩

def monthSpec : FieldSpec := ⟨1, 12, monthNames, by decide⟩

def dowSpec : FieldSpec := ⟨0, 7, dowNames, by decide⟩

/-- `str::parse::<u32>`, which takes a leading `+`. -/
def parseU32 (s : Text) : Option Nat :=
  let t := if s.head? = some '+' then s.tail else s
  if t.isEmpty || !t.all Char.isDigit then none
  else if digitsValue t < 2 ^ 32 then some (digitsValue t) else none

theorem parseU32_lt (h : parseU32 s = some n) : n < 2 ^ 32 := by
  unfold parseU32 at h
  grind

def resolveToken (tok : Text) (spec : FieldSpec) : Except String Nat :=
  let t := trim tok
  if t.isEmpty then .error "empty token"
  else
    match parseU32 t with
    | some n => .ok n
    | none =>
      match spec.names.lookup (String.ofList (t.map Char.toLower)) with
      | some v => .ok v
      | none => .error (quoted "invalid token" tok)

/-- One element of a field's list. -/
structure Element where
  lo : Nat
  hi : Nat
  step : Nat
  isStar : Bool
  deriving DecidableEq

def parseStep (field part : Text) : Except String (Text × Nat) :=
  match splitOnce '/' part with
  | some (r, s) =>
    match parseU32 s with
    | none => .error (quoted (quoted "invalid step" s ++ " in") field)
    | some 0 => .error (quoted "step must be > 0 in" field)
    | some step => .ok (r, step)
  | none => .ok (part, 1)

def resolveRange (range : Text) (step : Nat) (spec : FieldSpec) : Except String Element :=
  if range = ['*'] then .ok ⟨spec.min, spec.max, step, true⟩
  else
    match splitOnce '-' range with
    | some (a, b) => do
      let lo ← resolveToken a spec
      let hi ← resolveToken b spec
      .ok ⟨lo, hi, step, false⟩
    | none => do
      let v ← resolveToken range spec
      -- a value alone with a step spans the rest of the domain
      .ok ⟨v, if 1 < step then spec.max else v, step, false⟩

def parseElement (field part : Text) (spec : FieldSpec) : Except String Element :=
  let part := trim part
  if part.isEmpty then .error (quoted "empty list element in" field)
  else do
    let (range, step) ← parseStep field part
    let e ← resolveRange range step spec
    if e.lo < spec.min || spec.max < e.hi || e.hi < e.lo then
      .error (quoted s!"value out of range [{spec.min}, {spec.max}] in" field)
    else .ok e

/-- A refused expression, or a loop that outruns its fuel. -/
inductive Stop
  | message (text : String)
  | spins
  deriving DecidableEq

/-- The loop of one element in wrapping `u32` arithmetic; `wrapped` notes that it overflowed. -/
def fill : Nat → (hi step v : Nat) → Mask → (wrapped : Bool) → Option (Mask × Bool)
  | 0, _, _, _, _, _ => none
  | fuel + 1, hi, step, v, bits, wrapped =>
    if v ≤ hi then
      fill fuel hi step ((v + step) % 2 ^ 32) (setBit bits v)
        (wrapped || decide (2 ^ 32 ≤ v + step))
    else some (bits, wrapped)

structure Parsed where
  bits : Mask
  restricted : Bool
  wrapped : Bool
  deriving DecidableEq

def parseParts (fuel : Nat) (field : Text) (spec : FieldSpec) :
    List Text → Parsed → Except Stop Parsed
  | [], p => .ok p
  | part :: parts, p =>
    match parseElement field part spec with
    | .error m => .error (.message m)
    | .ok e =>
      match fill fuel e.hi e.step e.lo p.bits p.wrapped with
      | none => .error .spins
      | some (bits, wrapped) =>
        parseParts fuel field spec parts
          ⟨bits, p.restricted && !(e.isStar && e.step == 1), wrapped⟩

def parseField (fuel : Nat) (field : Text) (spec : FieldSpec) : Except Stop Parsed :=
  if field.isEmpty then .error (.message "empty field")
  else parseParts fuel field spec (field.splitOn ',') ⟨0#64, true, false⟩

/-- The masks of a schedule, bit by bit; bit 0 of `dom` and of `months` is unused. -/
structure CronSchedule where
  minutes : BitVec 64
  hours : BitVec 32
  dom : BitVec 32
  months : BitVec 16
  dow : BitVec 8
  domRestricted : Bool
  dowRestricted : Bool
  deriving DecidableEq

def foldSunday (raw : Mask) : Mask :=
  if raw &&& 1#64 <<< 7 ≠ 0 then (raw ||| 1#64) &&& ~~~(1#64 <<< 7) else raw

def CronSchedule.parse (fuel : Nat) (expr : Text) : Except Stop CronSchedule :=
  match splitWhitespace expr with
  | [f0, f1, f2, f3, f4] => do
    let minutes ← parseField fuel f0 minuteSpec
    let hours ← parseField fuel f1 hourSpec
    let dom ← parseField fuel f2 domSpec
    let months ← parseField fuel f3 monthSpec
    let dow ← parseField fuel f4 dowSpec
    .ok {
      minutes := minutes.bits
      hours := hours.bits.setWidth 32
      dom := dom.bits.setWidth 32
      months := months.bits.setWidth 16
      dow := (foldSunday dow.bits).setWidth 8
      domRestricted := dom.restricted
      dowRestricted := dow.restricted }
  | fields => .error (.message
      s!"expected 5 fields (min hour dom month dow), got {fields.length}")

/-- `parse_field`'s reading of the list, without the loop. -/
def elements (field : Text) (spec : FieldSpec) : Except String (List Element) :=
  if field.isEmpty then .error "empty field"
  else (field.splitOn ',').mapM fun part => parseElement field part spec

/-- `lo`, `lo + step`, … up to `hi`. -/
def Element.Holds (e : Element) (j : Nat) : Prop := ∃ k, j = e.lo + k * e.step ∧ j ≤ e.hi

theorem fill_succ : fill (fuel + 1) hi step v bits w =
    if v ≤ hi then fill fuel hi step ((v + step) % 2 ^ 32) (setBit bits v)
      (w || decide (2 ^ 32 ≤ v + step))
    else some (bits, w) := rfl

theorem fill_up (hhi : hi < 64) (hstep : 0 < step) (hs : step ≤ 2 ^ 32 - 64)
    (hf : hi + 2 ≤ v + fuel) (hf' : 0 < fuel) (bits : Mask) (w : Bool) :
    (fill fuel hi step v bits w).isSome := by
  induction fuel generalizing v bits w with
  | zero => cases hf'
  | succ fuel ih =>
    rw [fill_succ]
    split
    · rw [Nat.mod_eq_of_lt (by omega)]
      exact ih (by omega) (by omega) _ _
    · rfl

theorem fill_down (hhi : hi < 64) (hs : 2 ^ 32 - 64 < step) (hs' : step < 2 ^ 32)
    (hf : v + 2 ≤ fuel ∨ hi < v ∧ 0 < fuel) (bits : Mask) (w : Bool) :
    (fill fuel hi step v bits w).isSome := by
  induction fuel generalizing v bits w with
  | zero => omega
  | succ fuel ih =>
    rw [fill_succ]
    split
    · apply ih
      by_cases h : 2 ^ 32 ≤ v + step
      · left
        rw [Nat.mod_eq_sub_mod h, Nat.mod_eq_of_lt (by omega)]
        omega
      · right
        rw [Nat.mod_eq_of_lt (by omega)]
        omega
    · rfl

theorem fill_isSome (hhi : hi < 64) (hv : v ≤ hi) (hstep : 0 < step) (hs : step < 2 ^ 32)
    (hf : 66 ≤ fuel) (bits : Mask) (w : Bool) : (fill fuel hi step v bits w).isSome := by
  by_cases h : step ≤ 2 ^ 32 - 64
  · exact fill_up hhi hstep h (by omega) (by omega) bits w
  · exact fill_down hhi (by omega) hs (.inl (by omega)) bits w

theorem fill_wrapped (h : fill fuel hi step v bits true = some r) : r.2 = true := by
  induction fuel generalizing v bits with
  | zero => cases h
  | succ fuel ih =>
    rw [fill_succ] at h
    split at h
    · exact ih (by simpa using h)
    · cases h
      rfl

theorem fill_overflows (hv : v ≤ hi) (ho : 2 ^ 32 ≤ v + step)
    (h : fill fuel hi step v bits w = some r) : r.2 = true := by
  cases fuel with
  | zero => cases h
  | succ fuel =>
    rw [fill_succ, if_pos hv, decide_eq_true ho, Bool.or_true] at h
    exact fill_wrapped h

theorem fill_le (hhi : hi < 64) (h : fill fuel hi step v bits w = some r)
    (hj : r.1.getLsbD j = true) : bits.getLsbD j = true ∨ j ≤ hi := by
  induction fuel generalizing v bits w with
  | zero => cases h
  | succ fuel ih =>
    rw [fill_succ] at h
    split at h
    next hv =>
      have hb := ih h
      rw [getLsbD_setBit bits (by omega), Bool.or_eq_true, decide_eq_true_eq] at hb
      obtain (hb | rfl) | hb := hb
      · exact .inl hb
      · exact .inr hv
      · exact .inr hb
    next =>
      cases h
      exact .inl hj

theorem progression_step (hv : v ≤ hi) (step j : Nat) :
    (∃ k, j = v + k * step ∧ j ≤ hi) ↔
      j = v ∨ ∃ k, j = v + step + k * step ∧ j ≤ hi := by
  constructor
  · rintro ⟨k, rfl, hj⟩
    cases k with
    | zero => simp
    | succ k => exact .inr ⟨k, by ring, hj⟩
  · rintro (rfl | ⟨k, rfl, hj⟩)
    · exact ⟨0, by simp, hv⟩
    · exact ⟨k + 1, by ring, hj⟩

theorem fill_exact (hhi : hi < 64) (ho : v ≤ hi → v + step < 2 ^ 32)
    (h : fill fuel hi step v bits w = some r) :
    r.2 = w ∧ ∀ j, r.1.getLsbD j = true ↔
      bits.getLsbD j = true ∨ ∃ k, j = v + k * step ∧ j ≤ hi := by
  induction fuel generalizing v bits w with
  | zero => cases h
  | succ fuel ih =>
    rw [fill_succ] at h
    split at h
    next hv =>
      have hlt := ho hv
      rw [Nat.mod_eq_of_lt hlt, decide_eq_false (by omega), Bool.or_false] at h
      obtain ⟨hw, hb⟩ := ih (fun _ => by omega) h
      refine ⟨hw, fun j => ?_⟩
      rw [hb, getLsbD_setBit bits (by omega), progression_step hv]
      simp [or_assoc]
    next hv =>
      cases h
      refine ⟨rfl, fun j => ⟨.inl, ?_⟩⟩
      rintro (h | ⟨k, rfl, hj⟩)
      · exact h
      · omega

structure Element.Within (e : Element) (spec : FieldSpec) : Prop where
  min_le : spec.min ≤ e.lo
  le : e.lo ≤ e.hi
  le_max : e.hi ≤ spec.max
  step_pos : 0 < e.step
  step_lt : e.step < 2 ^ 32

theorem parseStep_within (h : parseStep field part = .ok (range, step)) :
    0 < step ∧ step < 2 ^ 32 := by
  unfold parseStep at h
  split at h
  · split at h
    · cases h
    · cases h
    next n hn hp =>
      cases h
      exact ⟨Nat.pos_of_ne_zero fun h0 => hn (by rw [h0]), parseU32_lt hp⟩
  · cases h
    omega

theorem resolveRange_step (h : resolveRange range step spec = .ok e) : e.step = step := by
  unfold resolveRange at h
  split at h
  · cases h
    rfl
  · split at h
    · obtain ⟨lo, -, h⟩ := bind_ok.mp h
      obtain ⟨hi, -, h⟩ := bind_ok.mp h
      cases h
      rfl
    · obtain ⟨v, -, h⟩ := bind_ok.mp h
      cases h
      rfl

theorem parseElement_within (h : parseElement field part spec = .ok e) : e.Within spec := by
  unfold parseElement at h
  dsimp only at h
  split at h
  · cases h
  · obtain ⟨⟨range, step⟩, hs, h⟩ := bind_ok.mp h
    obtain ⟨e', he, h⟩ := bind_ok.mp h
    have hstep := parseStep_within hs
    rw [show step = e'.step from (resolveRange_step he).symm] at hstep
    split at h
    · cases h
    next hr =>
      cases h
      simp only [Bool.or_eq_true, decide_eq_true_eq, not_or, Nat.not_lt] at hr
      exact ⟨hr.1.1, hr.2, hr.1.2, hstep.1, hstep.2⟩

/-- The first addition of its loop stays below `2 ^ 32`; the rest then do. -/
def Element.Fits (e : Element) : Prop := e.lo + e.step < 2 ^ 32

instance (e : Element) : Decidable e.Fits := Nat.decLt _ _

/-- What the loops of the elements `es` make of `p`. -/
structure Filled (spec : FieldSpec) (es : List Element) (p q : Parsed) : Prop where
  within : ∀ e ∈ es, e.Within spec
  le_max : ∀ j, q.bits.getLsbD j = true → p.bits.getLsbD j = true ∨ j ≤ spec.max
  kept : p.wrapped = true → q.wrapped = true
  overflows : (∃ e ∈ es, ¬e.Fits) → q.wrapped = true
  exact : (∀ e ∈ es, e.Fits) → q.wrapped = p.wrapped ∧
    ∀ j, q.bits.getLsbD j = true ↔ p.bits.getLsbD j = true ∨ ∃ e ∈ es, e.Holds j

theorem Filled.nil (spec : FieldSpec) (p : Parsed) : Filled spec [] p p where
  within := by simp
  le_max _ := .inl
  kept := id
  overflows := by simp
  exact _ := ⟨rfl, by simp⟩

theorem Filled.cons {e : Element} {p p' : Parsed} (he : e.Within spec)
    (hf : fill fuel e.hi e.step e.lo p.bits p.wrapped = some (p'.bits, p'.wrapped))
    (h : Filled spec es p' q) : Filled spec (e :: es) p q where
  within := List.forall_mem_cons.mpr ⟨he, h.within⟩
  le_max j hj := by
    cases h.le_max j hj with
    | inl hj =>
      have hmax := Nat.lt_of_le_of_lt he.le_max spec.max_lt
      exact (fill_le hmax hf hj).imp_right (Nat.le_trans · he.le_max)
    | inr hj => exact .inr hj
  kept hp := by
    rw [hp] at hf
    exact h.kept (fill_wrapped hf)
  overflows := by
    rintro ⟨e', he', ho⟩
    cases he' with
    | head => exact h.kept (fill_overflows he.le (Nat.le_of_not_lt ho) hf)
    | tail _ he' => exact h.overflows ⟨e', he', ho⟩
  exact hfit := by
    obtain ⟨hfe, hfes⟩ := List.forall_mem_cons.mp hfit
    obtain ⟨hw, hb⟩ := h.exact hfes
    obtain ⟨hw', hb'⟩ := fill_exact (Nat.lt_of_le_of_lt he.le_max spec.max_lt) (fun _ => hfe) hf
    refine ⟨hw.trans hw', fun j => ?_⟩
    rw [hb, hb']
    simp only [List.mem_cons, exists_eq_or_imp, or_assoc, Element.Holds]

theorem parseParts_ok (h : parseParts fuel field spec parts p = .ok q) :
    ∃ es, (parts.mapM fun part => parseElement field part spec) = .ok es ∧
      Filled spec es p q := by
  induction parts generalizing p with
  | nil =>
    cases h
    exact ⟨[], rfl, .nil spec _⟩
  | cons part parts ih =>
    rw [parseParts] at h
    split at h
    · cases h
    next e he =>
      split at h
      · cases h
      next bits w hf =>
        obtain ⟨es, hes, hq⟩ := ih h
        refine ⟨e :: es, ?_, .cons (parseElement_within he) hf hq⟩
        rw [List.mapM_cons, he, hes]
        rfl

theorem parseParts_halts (hfuel : 66 ≤ fuel) (p : Parsed) :
    parseParts fuel field spec parts p ≠ .error .spins := by
  induction parts generalizing p with
  | nil => simp [parseParts]
  | cons part parts ih =>
    rw [parseParts]
    split
    · simp
    next e he =>
      have hw := parseElement_within he
      have hf := fill_isSome (Nat.lt_of_le_of_lt hw.le_max spec.max_lt) hw.le hw.step_pos
        hw.step_lt hfuel p.bits p.wrapped
      split
      next h => simp [h] at hf
      · exact ih _

theorem parseParts_total (hfuel : 66 ≤ fuel)
    (h : (parts.mapM fun part => parseElement field part spec) = .ok es) (p : Parsed) :
    ∃ q, parseParts fuel field spec parts p = .ok q := by
  induction parts generalizing es p with
  | nil => exact ⟨p, rfl⟩
  | cons part parts ih =>
    rw [List.mapM_cons] at h
    obtain ⟨e, he, h⟩ := bind_ok.mp h
    obtain ⟨es', hes, -⟩ := bind_ok.mp h
    have hw := parseElement_within he
    obtain ⟨r, hr⟩ := Option.isSome_iff_exists.mp
      (fill_isSome (Nat.lt_of_le_of_lt hw.le_max spec.max_lt) hw.le hw.step_pos hw.step_lt hfuel
        p.bits p.wrapped)
    rw [parseParts, he]
    dsimp only
    rw [hr]
    exact ih hes _

theorem parseField_ok (h : parseField fuel field spec = .ok p) :
    ∃ es, elements field spec = .ok es ∧ Filled spec es ⟨0#64, true, false⟩ p := by
  unfold parseField at h
  unfold elements
  split at h
  · cases h
  next hf =>
    rw [if_neg hf]
    exact parseParts_ok h

theorem parseField_le (h : parseField fuel field spec = .ok p) (hj : p.bits.getLsbD j = true) :
    j ≤ spec.max := by
  obtain ⟨es, -, hfill⟩ := parseField_ok h
  simpa using hfill.le_max j hj

theorem parseField_halts (hfuel : 66 ≤ fuel) : parseField fuel field spec ≠ .error .spins := by
  unfold parseField
  split
  · simp
  · exact parseParts_halts hfuel _

theorem parseField_total (hfuel : 66 ≤ fuel) (h : elements field spec = .ok es) :
    ∃ p, parseField fuel field spec = .ok p := by
  unfold elements at h
  unfold parseField
  split at h
  · cases h
  next hf =>
    rw [if_neg hf]
    exact parseParts_total hfuel h _

/-- The mask is the union of the elements' progressions, inside the domain, without overflow,
and the loops end. -/
structure Denotes (field : Text) (spec : FieldSpec) : Prop where
  halts : ∃ n, ∀ fuel ≥ n, parseField fuel field spec ≠ .error .spins
  noOverflow : ∀ fuel p, parseField fuel field spec = .ok p → p.wrapped = false
  union : ∀ fuel p, parseField fuel field spec = .ok p →
    ∃ es, elements field spec = .ok es ∧
      ∀ j, p.bits.getLsbD j = true ↔ ∃ e ∈ es, e.Holds j
  inside : ∀ fuel p, parseField fuel field spec = .ok p →
    ∀ j, p.bits.getLsbD j = true → spec.min ≤ j ∧ j ≤ spec.max

theorem Element.Within.inside {e : Element} {spec : FieldSpec} (he : e.Within spec)
    (hj : e.Holds j) :
    spec.min ≤ j ∧ j ≤ spec.max := by
  obtain ⟨k, rfl, hk⟩ := hj
  exact ⟨Nat.le_trans he.min_le (Nat.le_add_right _ _), Nat.le_trans hk he.le_max⟩

/-- A field denotes its progressions exactly when no element's first addition overflows. -/
theorem denotes_iff (field : Text) (spec : FieldSpec) :
    Denotes field spec ↔ ∀ es, elements field spec = .ok es → ∀ e ∈ es, e.lo + e.step < 2 ^ 32 := by
  constructor
  · intro h es hes e he
    obtain ⟨p, hp⟩ := parseField_total (Nat.le_refl 66) hes
    obtain ⟨es', hes', hfill⟩ := parseField_ok hp
    cases hes.symm.trans hes'
    by_contra ho
    have hw := hfill.overflows ⟨e, he, ho⟩
    rw [h.noOverflow _ _ hp] at hw
    cases hw
  · intro h
    have hunion {fuel p} (hp : parseField fuel field spec = .ok p) :
        ∃ es, elements field spec = .ok es ∧ (∀ e ∈ es, e.Within spec) ∧ p.wrapped = false ∧
          ∀ j, p.bits.getLsbD j = true ↔ ∃ e ∈ es, e.Holds j := by
      obtain ⟨es, hes, hfill⟩ := parseField_ok hp
      obtain ⟨hw, hb⟩ := hfill.exact (h es hes)
      exact ⟨es, hes, hfill.within, hw, by simpa using hb⟩
    constructor
    · exact ⟨66, fun fuel hfuel => parseField_halts hfuel⟩
    · intro fuel p hp
      obtain ⟨es, -, -, hw, -⟩ := hunion hp
      exact hw
    · intro fuel p hp
      obtain ⟨es, hes, -, -, hb⟩ := hunion hp
      exact ⟨es, hes, hb⟩
    · intro fuel p hp j hj
      obtain ⟨es, -, hin, -, hb⟩ := hunion hp
      obtain ⟨e, he, hj⟩ := (hb j).mp hj
      exact (hin e he).inside hj

/-- From day 5 by 4294967295: the cursor walks down to bit 0. -/
theorem day_five_not_denotes : ¬∀ field spec, Denotes field spec := by
  intro h
  have hp : parseField 66 "5/4294967295".toList domSpec = .ok ⟨63#64, true, true⟩ := by decide
  have h0 := (h _ _).inside _ _ hp 0 (by decide)
  exact absurd h0.1 (by decide)

end AScript.Stdlib.Cron
