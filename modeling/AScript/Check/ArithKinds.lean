import AScript.Runtime.Binop
import AScript.Runtime.Contract

namespace AScript.Check

open AScript.Lib AScript.Syntax AScript.Runtime

inductive ResultKind
  | int
  | float
  | string
  | bool
  deriving DecidableEq

inductive OperandKind
  | int
  | float
  | number
  | string
  | bool
  | nil
  deriving DecidableEq

/-- The families of operators. -/
inductive ArithOp
  | add
  | numericArith
  | wrappingArith
  | bitwise
  | comparison
  | logical
  deriving DecidableEq

def numericResult : OperandKind → OperandKind → Option ResultKind
  | .int, .int => some .int
  | .int, .float | .float, .int | .float, .float => some .float
  | _, _ => none

def arithResultKind : ArithOp → OperandKind → OperandKind → Option ResultKind
  | .logical, _, _ => none
  | .comparison, _, _ => some .bool
  | .bitwise, .int, .int | .wrappingArith, .int, .int => some .int
  | .bitwise, _, _ | .wrappingArith, _, _ => none
  | .numericArith, l, r => numericResult l r
  | .add, .string, .string => some .string
  | .add, .string, _ | .add, _, .string => none
  | .add, l, r => numericResult l r

/-- `elide_arith_op`: no family for `**`, whose result kind depends on the exponent. -/
def elideArithOp : BinOp → Option ArithOp
  | .add => some .add
  | .sub | .mul | .div | .mod => some .numericArith
  | .pow => none
  | .wrapAdd | .wrapSub | .wrapMul => some .wrappingArith
  | .bitAnd | .bitOr | .bitXor | .shl | .shr => some .bitwise
  | .eq | .ne | .lt | .le | .gt | .ge | .instanceOf => some .comparison
  | .and | .or | .coalesce => some .logical
  | .range => none

/-- The families as the table describes them, `**` with the other numeric operators. -/
def describedFamily : BinOp → Option ArithOp
  | .pow => some .numericArith
  | op => elideArithOp op

variable {D O : Type}

/-- A value of an operand's kind. -/
def OperandKind.holds : OperandKind → Value D O → Bool
  | .int, .int _ => true
  | .float, .float _ => true
  | .number, .int _ | .number, .float _ => true
  | .string, .str _ => true
  | .bool, .bool _ => true
  | .nil, .nil => true
  | _, _ => false

/-- A value of a result's kind. -/
def ResultKind.holds : ResultKind → Value D O → Bool
  | .int, .int _ => true
  | .float, .float _ => true
  | .string, .str _ => true
  | .bool, .bool _ => true
  | _, _ => false

def ResultKind.toType : ResultKind → Ty
  | .int => .int
  | .float => .float
  | .string => .string
  | .bool => .bool

theorem ResultKind.checkType {A : Type} {v : Val D A} {k : ResultKind} (hv : k.holds v = true)
    (h : Heap D A) : checkType h k.toType v = true := by
  cases k <;> cases v <;> simp_all [ResultKind.holds, ResultKind.toType, Runtime.checkType]

variable (x : Externs D O)

theorem map_ok {f : α → β} {c : Except ε α} (h : f <$> c = .ok v) : ∃ a, v = f a := by
  cases c with
  | error => cases h
  | ok a =>
    cases h
    exact ⟨a, rfl⟩

theorem intBinop_kind (hp : op ≠ .pow) (h : intBinop x op a b = .ok v) :
    (if elideArithOp op = some .comparison then ResultKind.bool else .int).holds v = true := by
  cases op <;> simp only [intBinop] at h <;> try (cases h <;> rfl)
  case pow => exact absurd rfl hp
  case div =>
    split at h
    · cases h
    · obtain ⟨_, rfl⟩ := map_ok h
      rfl
  case mod =>
    split at h
    · cases h
    · obtain ⟨_, rfl⟩ := map_ok h
      rfl
  all_goals
    obtain ⟨_, rfl⟩ := map_ok h
    rfl

theorem floatBinop_kind (h : floatBinop x op a b = .ok v) :
    (if elideArithOp op = some .comparison then ResultKind.bool else .float).holds v = true := by
  cases op <;> cases h <;> rfl

theorem mixedBinop_kind (h : mixedBinop x op i f first = .ok v) :
    (if elideArithOp op = some .comparison then ResultKind.bool else .float).holds v = true := by
  cases op
  case lt | le | gt | ge =>
    cases h
    rfl
  all_goals
    simp only [mixedBinop] at h
    split at h <;> exact floatBinop_kind x h

def promoted : Value D O → Value D O → Option ResultKind
  | .int _, .int _ => some .int
  | .int _, .float _ | .float _, .int _ | .float _, .float _ => some .float
  | _, _ => none

theorem numericResult_promoted {l r : Value D O} (hk : numericResult kl kr = some k)
    (hl : kl.holds l = true) (hr : kr.holds r = true) : promoted l r = some k := by
  cases kl <;> cases kr <;> cases hk <;> cases l <;> cases hl <;> cases r <;> cases hr <;> rfl

theorem numericBinop_kind (hp : op ≠ .pow) (h : numericBinop x op l r = .ok v) :
    ∃ k, promoted l r = some k ∧
      (if elideArithOp op = some .comparison then ResultKind.bool else k).holds v = true := by
  unfold numericBinop at h
  split at h
  · exact ⟨_, rfl, intBinop_kind x hp h⟩
  · exact ⟨_, rfl, mixedBinop_kind x h⟩
  · exact ⟨_, rfl, mixedBinop_kind x h⟩
  · exact ⟨_, rfl, floatBinop_kind x h⟩
  · cases h

theorem OperandKind.holds_not_decimal {k : OperandKind} {v : Value D O} (h : k.holds v = true) :
    isDecimal v = false := by
  cases k <;> cases v <;> first | rfl | cases h

theorem arithBinop_ok [DecidableEq D] (hl : isDecimal l = false) (hr : isDecimal r = false)
    (h : arithBinop x op l r = .ok v) : numericBinop x op l r = .ok v := by
  unfold arithBinop at h
  rw [hl, hr] at h
  simp only [Bool.or_self, Bool.false_eq_true, if_false, bind, Except.bind] at h
  split at h
  · cases h
  · exact h

theorem arithBinop_kind [DecidableEq D] (hp : op ≠ .pow) (hl : OperandKind.holds kl l = true)
    (hr : OperandKind.holds kr r = true) (h : arithBinop x op l r = .ok v) :
    ∃ k, promoted l r = some k ∧
      (if elideArithOp op = some .comparison then ResultKind.bool else k).holds v = true :=
  numericBinop_kind x hp (arithBinop_ok x (OperandKind.holds_not_decimal hl)
    (OperandKind.holds_not_decimal hr) h)

variable [DecidableEq D] [BEq O]

theorem comparison_kind (hf : elideArithOp op = some .comparison)
    (hl : OperandKind.holds kl l = true)
    (hr : OperandKind.holds kr r = true) (h : applyBinop x fuel op l r = .ok v) :
    ResultKind.bool.holds v = true := by
  cases op <;> cases hf
  case eq | ne =>
    obtain ⟨_, rfl⟩ := map_ok h
    rfl
  case instanceOf => cases h
  all_goals
    obtain ⟨k, -, hv⟩ := arithBinop_kind x (by decide) hl hr h
    exact hv

theorem numeric_kind (hf : elideArithOp op = some fam) (hc : fam ≠ .comparison)
    (hg : fam ≠ .logical) (hk : numericResult kl kr = some k) (hl : OperandKind.holds kl l = true)
    (hr : OperandKind.holds kr r = true) (h : applyBinop x fuel op l r = .ok v) :
    k.holds v = true := by
  have hprom := numericResult_promoted hk hl hr
  have hp : op ≠ .pow := by
    rintro rfl
    cases hf
  have harith : arithBinop x op l r = .ok v := by
    cases op <;> cases hf <;> first | exact h | exact absurd rfl hc | exact absurd rfl hg | skip
    cases l <;> cases r <;> first | exact h | cases hprom
  obtain ⟨k', hk', hv⟩ := arithBinop_kind x hp hl hr harith
  cases hprom.symm.trans hk'
  rw [hf, if_neg (by simpa using hc)] at hv
  exact hv

theorem concat_kind (hl : OperandKind.holds .string l = true)
    (hr : OperandKind.holds .string r = true) (h : applyBinop x fuel .add l r = .ok v) :
    ResultKind.string.holds v = true := by
  cases l <;> cases hl
  cases r <;> cases hr
  cases h
  rfl

/-- The table is sound for the operators as the checker maps them to families; a contract for
the kind it gives never fails. -/
theorem arithResultKind_sound {A : Type} [BEq (Handle D A)] (x : Externs D (Handle D A))
    (fuel : Nat) (op : BinOp) (fam : ArithOp) (kl kr : OperandKind) (k : ResultKind)
    (l r v : Val D A) (hf : elideArithOp op = some fam) (hl : kl.holds l = true)
    (hr : kr.holds r = true) (hk : arithResultKind fam kl kr = some k)
    (h : applyBinop x fuel op l r = .ok v) :
    k.holds v = true ∧ ∀ heap : Heap D A, checkType heap k.toType v = true := by
  have hv : k.holds v = true := by
    cases fam with
    | logical => cases hk
    | comparison =>
      cases hk
      exact comparison_kind x hf hl hr h
    | numericArith => exact numeric_kind x hf (by decide) (by decide) hk hl hr h
    | wrappingArith | bitwise =>
      have hint : numericResult kl kr = some k := by
        cases kl <;> cases kr <;> cases hk
        rfl
      exact numeric_kind x hf (by decide) (by decide) hint hl hr h
    | add =>
      have hop : op = .add := by
        cases op <;> cases hf
        rfl
      subst hop
      by_cases hs : kl = .string ∧ kr = .string
      · obtain ⟨rfl, rfl⟩ := hs
        cases hk
        exact concat_kind x hl hr h
      · have hnum : numericResult kl kr = some k := by
          cases kl <;> cases kr <;> first | exact absurd ⟨rfl, rfl⟩ hs | exact hk
        exact numeric_kind x hf (by decide) (by decide) hnum hl hr h
  exact ⟨hv, ResultKind.checkType hv⟩

/-- Floats and decimals that no integer operation below asks for, but `2 ** -1` being 0.5. -/
def halfExterns : Externs Unit (Handle Unit Unit) where
  ofI64 i := if i.val = 2 then ⟨0x4000000000000000#64⟩ else ⟨0xbff0000000000000#64⟩
  add a _ := a
  sub a _ := a
  mul a _ := a
  div a _ := a
  rem a _ := a
  powf _ _ := ⟨0x3fe0000000000000#64⟩
  decOfInt _ := ()
  decOfFloat _ := none
  decAdd _ _ := none
  decSub _ _ := none
  decMul _ _ := none
  decDiv _ _ := none
  decRem _ _ := none
  decIsZero _ := false
  decLt _ _ := false
  typeName _ := ""
  formatNumber _ := ""
  array _ := .code .future

/-- `2 - 3`. -/
theorem arithResultKind_sound_sub : ResultKind.int.holds
      (.int ⟨-1, by decide, by decide⟩ : Val Unit Unit) = true ∧
    ∀ heap : Heap Unit Unit, checkType heap .int (.int ⟨-1, by decide, by decide⟩) = true :=
  @arithResultKind_sound Unit _ Unit ⟨fun _ _ => false⟩ halfExterns 0 .sub .numericArith .int .int
    .int (.int ⟨2, by decide, by decide⟩) (.int ⟨3, by decide, by decide⟩)
    (.int ⟨-1, by decide, by decide⟩) rfl rfl rfl rfl rfl

/-- With `**` among the numeric operators, `2 ** -1` is a float where the table says integer. -/
theorem describedFamily_not_sound : ¬∀ (x : Externs Unit (Handle Unit Unit)) (op : BinOp)
    (fam : ArithOp) (kl kr : OperandKind) (k : ResultKind) (l r v : Val Unit Unit),
    describedFamily op = some fam → kl.holds l = true → kr.holds r = true →
    arithResultKind fam kl kr = some k →
    @applyBinop _ _ x _ ⟨fun _ _ => false⟩ 0 op l r = .ok v → k.holds v = true := by
  intro h
  have hv := h halfExterns .pow .numericArith .int .int .int (.int ⟨2, by decide, by decide⟩)
    (.int ⟨-1, by decide, by decide⟩) (.float ⟨0x3fe0000000000000#64⟩) rfl rfl rfl rfl rfl
  cases hv

end AScript.Check
