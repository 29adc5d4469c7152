import AScript.Lib.ByteText
import AScript.Lib.Intervals
import Mathlib.Data.List.Sort

/-! Applying the edits of autofixes (`check/fix.rs`). -/

namespace AScript.Check

open AScript.Lib.ByteText AScript.Lib.Intervals

structure ByteSpan where
  start : Nat
  stop : Nat
  deriving DecidableEq

structure TextEdit where
  range : ByteSpan
  replacement : List Char
  deriving DecidableEq

/-- `String::replace_range`; `none` is a panic. -/
def replaceRange (start stop : Nat) (replacement out : List Char) : Option (List Char) := do
  let front ← sliceTo start out
  let back ← sliceFrom stop out
  return front ++ (replacement ++ back)

def compareSpans (a b : TextEdit) : Ordering :=
  (compare b.range.start a.range.start).then (compare b.range.stop a.range.stop)

/-- One turn of the loop. No `lowestApplied` is the source's `usize::MAX`. -/
def applyEdit : List Char × Option Nat → TextEdit → Option (List Char × Option Nat)
  | (out, lowestApplied), e =>
    let start := e.range.start
    let stop := e.range.stop
    if start > stop ∨ stop > size out then some (out, lowestApplied)
    else if lowestApplied.any (stop > ·) then some (out, lowestApplied)
    else if ¬ isCharBoundary out start ∨ ¬ isCharBoundary out stop then some (out, lowestApplied)
    else (replaceRange start stop e.replacement out).map (·, some start)

def applyEdits (src : List Char) (edits : List TextEdit) : Option (List Char) :=
  if edits.isEmpty then some src
  else
    let sorted := edits.mergeSort fun a b => (compareSpans a b).isLE
    (sorted.foldlM applyEdit (src, none)).map Prod.fst

def TextEdit.at (e : TextEdit) : Range := (e.range.start, e.range.stop)

def ValidRange (src : List Char) (r : Range) : Prop :=
  r.1 ≤ r.2 ∧ isCharBoundary src r.1 ∧ isCharBoundary src r.2

instance (src : List Char) : DecidablePred (ValidRange src) :=
  fun _ => inferInstanceAs (Decidable (_ ∧ _))

/-- The source from an offset to another with the ranges between, from left to right, replaced. -/
def substitute (src : List Char) (i j : Nat) : List TextEdit → Option (List Char)
  | [] => slice i j src
  | e :: es => do
    let gap ← slice i e.at.1 src
    let rest ← substitute src e.at.2 j es
    return gap ++ (e.replacement ++ rest)

theorem substitute_concat (src : List Char) (i j : Nat) (es : List TextEdit) (e : TextEdit) :
    substitute src i j (es ++ [e]) = do
      let front ← substitute src i e.at.1 es
      let gap ← slice e.at.2 j src
      return front ++ (e.replacement ++ gap) := by
  induction es generalizing i with
  | nil => rfl
  | cons d es ih =>
    rw [List.cons_append, substitute, substitute, ih]
    cases slice i d.at.1 src with
    | none => rfl
    | some gap =>
      cases substitute src d.at.2 e.at.1 es with
      | none => rfl
      | some front =>
        cases slice e.at.2 j src with
        | none => rfl
        | some rest => simp

theorem ValidRange.le_size (h : ValidRange src r) : r.2 ≤ size src := le_of_isCharBoundary h.2.2

theorem ValidRange.split (h : ValidRange (p ++ q) r) (hle : r.2 ≤ size p) :
    ∃ a m g, p = a ++ m ++ g ∧ size a = r.1 ∧ size (a ++ m) = r.2 := by
  obtain ⟨hle', hstart, hstop⟩ := h
  rw [isCharBoundary_front hle, isCharBoundary_iff] at hstop
  rw [isCharBoundary_front (hle'.trans hle), isCharBoundary_iff] at hstart
  obtain ⟨f, g, rfl, hf⟩ := hstop
  obtain ⟨a, g', ha, hsize⟩ := hstart
  obtain ⟨m, rfl⟩ := prefix_of_size_le (ha ▸ List.prefix_append a g') (List.prefix_append f g)
    (by omega)
  exact ⟨a, m, g, rfl, hsize, hf⟩

def Lowest (p q tail : List Char) (lowest : Option Nat) : Prop :=
  lowest = some (size p) ∨ lowest = none ∧ q = [] ∧ tail = []

theorem Lowest.any (hl : Lowest p q tail lowest) (hle : n ≤ size p) :
    lowest.any (n > ·) = false := by
  obtain rfl | ⟨rfl, -, -⟩ := hl
  · simpa using hle
  · rfl

theorem applyEdit_keep (hl : Lowest p q tail lowest) (h : ValidRange (p ++ q) e.at)
    (hle : e.at.2 ≤ size p) :
    ∃ a m g, p = a ++ m ++ g ∧ size a = e.at.1 ∧ size (a ++ m) = e.at.2 ∧
      applyEdit (p ++ tail, lowest) e =
        some (a ++ (e.replacement ++ (g ++ tail)), some (size a)) := by
  have hin : ¬ (e.range.start > e.range.stop ∨ e.range.stop > size (p ++ tail)) := by
    have : e.range.start ≤ e.range.stop := h.1
    have : e.range.stop ≤ size p := hle
    rw [size_append]
    omega
  obtain ⟨a, m, g, rfl, ha, hm⟩ := h.split hle
  have hcut : a ++ m ++ g ++ tail = a ++ (m ++ (g ++ tail)) := by simp
  have hcut' : a ++ m ++ g ++ tail = a ++ m ++ (g ++ tail) := by simp
  have hstart : isCharBoundary (a ++ m ++ g ++ tail) e.range.start :=
    isCharBoundary_iff.mpr ⟨_, _, hcut, ha⟩
  have hstop : isCharBoundary (a ++ m ++ g ++ tail) e.range.stop :=
    isCharBoundary_iff.mpr ⟨_, _, hcut', hm⟩
  have hreplace : replaceRange e.range.start e.range.stop e.replacement (a ++ m ++ g ++ tail) =
      some (a ++ (e.replacement ++ (g ++ tail))) := by
    have hfront : sliceTo e.range.start (a ++ m ++ g ++ tail) = some a :=
      sliceTo_eq_some.mpr ⟨_, hcut, ha⟩
    have hback : sliceFrom e.range.stop (a ++ m ++ g ++ tail) = some (g ++ tail) := by
      rw [hcut', ← show size (a ++ m) = e.range.stop from hm, sliceFrom_append]
    rw [replaceRange, hfront, hback]
    rfl
  refine ⟨a, m, g, rfl, ha, hm, ?_⟩
  rw [applyEdit, if_neg hin, show lowest.any (e.range.stop > ·) = false from hl.any hle,
    if_neg Bool.false_ne_true, if_neg (not_or.mpr ⟨not_not.mpr hstart, not_not.mpr hstop⟩),
    hreplace, ha]
  rfl

theorem applyEdit_skip (hl : Lowest p q tail lowest)
    (h : ¬ (ValidRange (p ++ q) e.at ∧ e.at.2 ≤ size p)) :
    applyEdit (p ++ tail, lowest) e = some (p ++ tail, lowest) := by
  rw [applyEdit]
  split
  next => rfl
  next hin =>
  split
  next => rfl
  next hfree =>
  split
  next => rfl
  next hboundary =>
  -- what passes every check on the text so far is a range of the source up to the limit
  refine absurd ?_ h
  rw [not_or, not_lt, not_lt] at hin
  rw [not_or, not_not, not_not] at hboundary
  have hle : e.range.stop ≤ size p := by
    obtain rfl | ⟨rfl, -, rfl⟩ := hl
    · simpa using hfree
    · rw [List.append_nil] at hin
      exact hin.2
  have hstart := hboundary.1
  have hstop := hboundary.2
  rw [isCharBoundary_front (hin.1.trans hle)] at hstart
  rw [isCharBoundary_front hle] at hstop
  refine ⟨⟨hin.1, ?_, ?_⟩, hle⟩
  · rw [← hstart]
    exact isCharBoundary_front (hin.1.trans hle) q
  · rw [← hstop]
    exact isCharBoundary_front hle q

def replaced (src : List Char) (limit : Nat) (l : List TextEdit) : Option (List Char) :=
  substitute src 0 limit (kept TextEdit.at (ValidRange src) limit l).reverse

theorem replaced_keep (h : ValidRange src e.at ∧ e.at.2 ≤ limit) (l : List TextEdit) :
    replaced src limit (e :: l) = do
      let front ← replaced src e.at.1 l
      let gap ← slice e.at.2 limit src
      return front ++ (e.replacement ++ gap) := by
  rw [replaced, kept, if_pos h, List.reverse_cons, substitute_concat]
  rfl

theorem replaced_skip (h : ¬ (ValidRange src e.at ∧ e.at.2 ≤ limit)) (l : List TextEdit) :
    replaced src limit (e :: l) = replaced src limit l := by
  rw [replaced, kept, if_neg h]
  rfl

theorem foldlM_applyEdit (l : List TextEdit) (hl : Lowest p q tail lowest) :
    ∃ x low, l.foldlM applyEdit (p ++ tail, lowest) = some (x ++ tail, low) ∧
      replaced (p ++ q) (size p) l = some x := by
  induction l generalizing p q tail lowest with
  | nil =>
    refine ⟨p, lowest, rfl, ?_⟩
    exact slice_append [] p q
  | cons e l ih =>
    rw [List.foldlM_cons]
    by_cases he : ValidRange (p ++ q) e.at ∧ e.at.2 ≤ size p
    · obtain ⟨a, m, g, rfl, ha, hm, hstep⟩ := applyEdit_keep hl he.1 he.2
      have hsrc : a ++ m ++ g ++ q = a ++ (m ++ (g ++ q)) := by simp
      have hlow : Lowest a (m ++ (g ++ q)) (e.replacement ++ (g ++ tail)) _ := .inl rfl
      obtain ⟨x, low, hrun, hx⟩ := ih hlow
      have hgap : slice e.at.2 (size (a ++ m ++ g)) (a ++ m ++ g ++ q) = some g := by
        rw [← hm]
        exact slice_append (a ++ m) g q
      refine ⟨x ++ (e.replacement ++ g), low, ?_, ?_⟩
      · rw [hstep, Option.bind_eq_bind, Option.bind_some, hrun]
        simp
      · rw [replaced_keep he, ← ha, hgap, hsrc, hx]
        rfl
    · obtain ⟨x, low, hrun, hx⟩ := ih hl
      refine ⟨x, low, ?_, by rw [replaced_skip he, hx]⟩
      rw [applyEdit_skip hl he, Option.bind_eq_bind, Option.bind_some, hrun]

theorem isLE_compareSpans (a b : TextEdit) :
    (compareSpans a b).isLE = decide (BeforeEq a.at b.at) := by
  rw [Bool.eq_iff_iff, decide_eq_true_iff, compareSpans, BeforeEq, TextEdit.at, TextEdit.at]
  rw [Ordering.isLE_then_iff_or, Nat.compare_eq_lt, Nat.compare_eq_eq, Nat.isLE_compare]

def Sorted (l : List TextEdit) : Prop := l.Pairwise fun a b => BeforeEq a.at b.at

theorem sorted_mergeSort (edits : List TextEdit) :
    Sorted (edits.mergeSort fun a b => (compareSpans a b).isLE) := by
  simp only [isLE_compareSpans]
  refine (List.pairwise_mergeSort ?_ ?_ edits).imp fun h => of_decide_eq_true h
  · intro a b c hab hbc
    exact decide_eq_true ((of_decide_eq_true hab).trans (of_decide_eq_true hbc))
  · intro a b
    rw [Bool.or_eq_true, decide_eq_true_iff, decide_eq_true_iff]
    exact BeforeEq.total _ _

theorem Sorted.mergeSort_eq (h : Sorted l) :
    (l.mergeSort fun a b => (compareSpans a b).isLE) = l := by
  simp only [isLE_compareSpans]
  exact List.mergeSort_of_pairwise (h.imp fun hab => decide_eq_true hab)

theorem applyEdits_eq (src : List Char) (edits : List TextEdit) :
    (applyEdits src edits).isSome ∧ applyEdits src edits =
      replaced src (size src) (edits.mergeSort fun a b => (compareSpans a b).isLE) := by
  have hlow : Lowest src [] [] none := .inr ⟨rfl, rfl, rfl⟩
  obtain ⟨x, low, hrun, hx⟩ :=
    foldlM_applyEdit (edits.mergeSort fun a b => (compareSpans a b).isLE) hlow
  rw [List.append_nil] at hrun hx
  rw [hx, applyEdits]
  split
  next hempty =>
    rw [List.isEmpty_iff] at hempty
    rw [hempty, List.mergeSort_nil] at hx
    have hall : replaced src (size src) [] = some src := by
      have := slice_append [] src []
      rwa [List.append_nil] at this
    exact ⟨rfl, hall.symm.trans hx⟩
  next =>
    dsimp only
    rw [hrun, List.append_nil]
    exact ⟨rfl, rfl⟩

/-- Of two edits of one range either can stand for the other, or before it where both insert. -/
def Agree (a b : TextEdit) : Prop :=
  if a.at.1 = a.at.2 then a.replacement ++ b.replacement = b.replacement ++ a.replacement
  else a.replacement = b.replacement

theorem Agree.refl (a : TextEdit) : Agree a a := by
  unfold Agree
  split <;> rfl

theorem slice_self (h : isCharBoundary src i) : slice i i src = some [] := by
  obtain ⟨a, b, rfl, rfl⟩ := isCharBoundary_iff.mp h
  have := slice_append a [] b
  rwa [List.append_nil] at this

theorem replaced_pair (h : ValidRange src a.at ∧ a.at.2 ≤ limit) (hab : a.at = b.at)
    (l : List TextEdit) : replaced src limit (a :: b :: l) = do
      let front ← replaced src a.at.1 l
      let gap ← slice a.at.2 limit src
      return front ++ ((if a.at.1 = a.at.2 then b.replacement ++ a.replacement
        else a.replacement) ++ gap) := by
  have hle : a.at.1 ≤ a.at.2 := h.1.1
  rw [replaced_keep h]
  by_cases hempty : a.at.1 = a.at.2
  · have hb : ValidRange src b.at ∧ b.at.2 ≤ a.at.1 := hab ▸ ⟨h.1, hempty.ge⟩
    rw [replaced_keep hb, ← hab, if_pos hempty, ← hempty, slice_self h.1.2.1]
    cases replaced src a.at.1 l with
    | none => rfl
    | some front => cases slice a.at.1 limit src <;> simp
  · have hb : ¬ (ValidRange src b.at ∧ b.at.2 ≤ a.at.1) := by
      rw [← hab]
      exact fun h => hempty (hle.antisymm h.2)
    rw [replaced_skip hb, if_neg hempty]

theorem replaced_swap (hab : a.at = b.at)
    (h : ValidRange src a.at ∧ a.at.2 ≤ limit → Agree a b) (l : List TextEdit) :
    replaced src limit (a :: b :: l) = replaced src limit (b :: a :: l) := by
  by_cases ha : ValidRange src a.at ∧ a.at.2 ≤ limit
  · have hagree := h ha
    unfold Agree at hagree
    rw [replaced_pair ha hab, replaced_pair (hab ▸ ha) hab.symm, ← hab]
    split at hagree <;> rename_i hempty
    · rw [if_pos hempty, if_pos hempty, hagree]
    · rw [if_neg hempty, if_neg hempty, hagree]
  · have hb : ¬ (ValidRange src b.at ∧ b.at.2 ≤ limit) := hab ▸ ha
    rw [replaced_skip ha, replaced_skip hb, replaced_skip hb, replaced_skip ha]

theorem replaced_move
    (hx : ∀ c ∈ x, a.at = c.at ∧ (ValidRange src a.at ∧ a.at.2 ≤ limit → Agree a c))
    (y : List TextEdit) :
    replaced src limit (x ++ a :: y) = replaced src limit (a :: (x ++ y)) := by
  induction x generalizing limit with
  | nil => rfl
  | cons c x ih =>
    obtain ⟨hc, hagree⟩ := hx c List.mem_cons_self
    have hrest : ∀ d ∈ x, a.at = d.at ∧ (ValidRange src a.at ∧ a.at.2 ≤ limit → Agree a d) :=
      fun d hd => hx d (List.mem_cons_of_mem c hd)
    rw [List.cons_append, List.cons_append, replaced_swap hc hagree]
    by_cases hkeep : ValidRange src c.at ∧ c.at.2 ≤ limit
    · have hle := hkeep.1.1
      rw [replaced_keep hkeep, replaced_keep hkeep, ih fun d hd => ?_]
      exact ⟨(hrest d hd).1, fun h => (hrest d hd).2 ⟨h.1, h.2.trans (hle.trans hkeep.2)⟩⟩
    · rw [replaced_skip hkeep, replaced_skip hkeep, ih hrest]

theorem kept_keep (h : ValidRange src e.at ∧ e.at.2 ≤ limit) (l : List TextEdit) :
    kept TextEdit.at (ValidRange src) limit (e :: l) =
      e :: kept TextEdit.at (ValidRange src) e.at.1 l := if_pos h

theorem kept_skip (h : ¬ (ValidRange src e.at ∧ e.at.2 ≤ limit)) (l : List TextEdit) :
    kept TextEdit.at (ValidRange src) limit (e :: l) =
      kept TextEdit.at (ValidRange src) limit l := if_neg h

theorem replaced_perm (hperm : l₁.Perm l₂) (h₁ : Sorted l₁) (h₂ : Sorted l₂)
    (hagree : ∀ a ∈ l₁, ∀ b ∈ l₁, a.at = b.at →
      (∃ k ∈ kept TextEdit.at (ValidRange src) limit l₁, k.at = a.at) → Agree a b) :
    replaced src limit l₁ = replaced src limit l₂ := by
  induction l₁ generalizing l₂ limit with
  | nil => rw [List.nil_perm.mp hperm]
  | cons a t ih =>
    obtain ⟨x, y, rfl⟩ := List.append_of_mem (hperm.mem_iff.mp List.mem_cons_self)
    have htail : t.Perm (x ++ y) := (hperm.trans List.perm_middle).cons_inv
    obtain ⟨hfirst, ht⟩ := List.pairwise_cons.mp h₁
    have hfront : ∀ c ∈ x,
        a.at = c.at ∧ (ValidRange src a.at ∧ a.at.2 ≤ limit → Agree a c) := by
      intro c hc
      have hct : c ∈ t := htail.mem_iff.mpr (List.mem_append_left y hc)
      have hat : a.at = c.at :=
        (hfirst c hct).antisymm ((List.pairwise_append.mp h₂).2.2 c hc a List.mem_cons_self)
      refine ⟨hat, fun hkeep => ?_⟩
      refine hagree a List.mem_cons_self c (List.mem_cons_of_mem a hct) hat ⟨a, ?_, rfl⟩
      rw [kept_keep hkeep]
      exact List.mem_cons_self
    have hxy : Sorted (x ++ y) :=
      List.Pairwise.sublist ((List.sublist_cons_self a y).append_left x) h₂
    rw [replaced_move hfront]
    by_cases hkeep : ValidRange src a.at ∧ a.at.2 ≤ limit
    · rw [replaced_keep hkeep, replaced_keep hkeep, ih htail ht hxy]
      rintro c hc d hd hcd ⟨k, hk, hkc⟩
      refine hagree c (List.mem_cons_of_mem a hc) d (List.mem_cons_of_mem a hd) hcd ⟨k, ?_, hkc⟩
      rw [kept_keep hkeep]
      exact List.mem_cons_of_mem a hk
    · rw [replaced_skip hkeep, replaced_skip hkeep, ih htail ht hxy]
      rintro c hc d hd hcd ⟨k, hk, hkc⟩
      refine hagree c (List.mem_cons_of_mem a hc) d (List.mem_cons_of_mem a hd) hcd ⟨k, ?_, hkc⟩
      rwa [kept_skip hkeep]

theorem replaced_append (hp : src = p ++ q) (l : List TextEdit) : ∃ p' q' back,
    src = p' ++ q' ∧ limitAfter TextEdit.at (ValidRange src) (size p) l = size p' ∧
      ∀ m, replaced src (size p) (l ++ m) = (replaced src (size p') m).map (· ++ back) := by
  induction l generalizing p q with
  | nil => exact ⟨p, q, [], hp, rfl, fun m => by simp⟩
  | cons e l ih =>
    by_cases hkeep : ValidRange src e.at ∧ e.at.2 ≤ size p
    · have hcut := hkeep.1
      rw [hp] at hcut
      obtain ⟨a, m, g, rfl, ha, hm⟩ := hcut.split hkeep.2
      obtain ⟨p', q', back, hp', hlimit, hrest⟩ := ih (p := a) (q := m ++ (g ++ q)) (by simp [hp])
      have hgap : slice e.at.2 (size (a ++ m ++ g)) src = some g := by
        rw [hp, ← hm]
        exact slice_append (a ++ m) g q
      rw [ha] at hlimit hrest
      refine ⟨p', q', back ++ (e.replacement ++ g), hp', ?_, fun r => ?_⟩
      · rw [limitAfter, if_pos hkeep, hlimit]
      · rw [List.cons_append, replaced_keep hkeep, hrest, hgap]
        cases replaced src (size p') r <;> simp
    · obtain ⟨p', q', back, hp', hlimit, hrest⟩ := ih hp
      refine ⟨p', q', back, hp', ?_, fun r => ?_⟩
      · rw [limitAfter, if_neg hkeep, hlimit]
      · rw [List.cons_append, replaced_skip hkeep, hrest]

theorem replaced_isSome (hp : src = p ++ q) (l : List TextEdit) :
    ∃ x, replaced src (size p) l = some x := by
  obtain ⟨x, -, -, hx⟩ := foldlM_applyEdit l (.inl rfl : Lowest p q [] _)
  exact ⟨x, hp ▸ hx⟩

theorem agree_of_replaced (hp : src = p ++ q) (ha : ValidRange src a.at ∧ a.at.2 ≤ size p)
    (hab : a.at = b.at)
    (h : replaced src (size p) (a :: b :: l) = replaced src (size p) (b :: a :: l)) :
    Agree a b := by
  have hcut := ha.1
  rw [hp] at hcut
  obtain ⟨f, m, g, rfl, hf, hm⟩ := hcut.split ha.2
  have hgap : slice a.at.2 (size (f ++ m ++ g)) src = some g := by
    rw [hp, ← hm]
    exact slice_append (f ++ m) g q
  obtain ⟨x, hx⟩ := replaced_isSome (show src = f ++ (m ++ (g ++ q)) by simp [hp]) l
  rw [hf] at hx
  rw [replaced_pair ha hab, replaced_pair (hab ▸ ha) hab.symm, ← hab, hx, hgap] at h
  have hin := List.append_cancel_right (List.append_cancel_left (Option.some_inj.mp h))
  unfold Agree
  split <;> rename_i hempty
  · rw [if_pos hempty, if_pos hempty] at hin
    exact hin.symm
  · rwa [if_neg hempty, if_neg hempty] at hin

theorem exists_arrangement {a b : TextEdit} (ha : a ∈ edits) (hb : b ∈ edits) (hne : a ≠ b)
    (hab : a.at = b.at) : ∃ l m, (l ++ a :: b :: m).Perm edits ∧
      Sorted (l ++ a :: b :: m) ∧ Sorted (l ++ b :: a :: m) ∧ ∀ e ∈ l, e.at ≠ a.at := by
  have hperm : edits.Perm (a :: b :: (edits.erase a).erase b) :=
    (List.perm_cons_erase ha).trans
      ((List.perm_cons_erase ((List.mem_erase_of_ne hne.symm).mpr hb)).cons a)
  generalize (edits.erase a).erase b = rest at hperm
  have hsort := sorted_mergeSort rest
  have hrest := List.mergeSort_perm rest fun a b => (compareSpans a b).isLE
  generalize rest.mergeSort (fun a b => (compareSpans a b).isLE) = r at hsort hrest
  let l := r.filter fun e => !decide (BeforeEq a.at e.at)
  let m := r.filter fun e => decide (BeforeEq a.at e.at)
  have hl : ∀ e ∈ l, Before e.at a.at := fun e he =>
    before_of_not_beforeEq (by simpa using (List.mem_filter.mp he).2)
  have hm : ∀ e ∈ m, BeforeEq a.at e.at := fun e he =>
    of_decide_eq_true (List.mem_filter.mp he).2
  have hsplit : (l ++ m).Perm r :=
    List.perm_append_comm.trans (List.filter_append_perm (fun e => decide (BeforeEq a.at e.at)) r)
  have harranged : ∀ c d : TextEdit, c.at = a.at → d.at = a.at → Sorted (l ++ c :: d :: m) := by
    intro c d hc hd
    refine List.pairwise_append.mpr ⟨hsort.sublist List.filter_sublist, ?_, ?_⟩
    · refine .cons (fun e he => ?_) (.cons (fun e he => ?_) (hsort.sublist List.filter_sublist))
      · rcases List.mem_cons.mp he with rfl | he
        · exact .of_eq (hc.trans hd.symm)
        · exact hc ▸ hm e he
      · exact hd ▸ hm e he
    · intro e he f hf
      rcases List.mem_cons.mp hf with rfl | hf
      · exact hc ▸ (hl e he).le
      · rcases List.mem_cons.mp hf with rfl | hf
        · exact hd ▸ (hl e he).le
        · exact (hl e he).le.trans (hm f hf)
  refine ⟨l, m, ?_, harranged a b rfl hab.symm, harranged b a hab.symm rfl, fun e he heq => ?_⟩
  · have hfront : (l ++ a :: b :: m).Perm (a :: b :: (l ++ m)) :=
      List.perm_middle.trans (List.perm_middle.cons a)
    exact hfront.trans (((hsplit.trans hrest).cons b).cons a |>.trans hperm.symm)
  · have hbefore := hl e he
    rw [heq] at hbefore
    exact hbefore.elim (lt_irrefl _) fun h => lt_irrefl _ h.2

theorem validRanges_perm (h : l.Perm m) : validRanges TextEdit.at (ValidRange src) l =
    validRanges TextEdit.at (ValidRange src) m := by
  ext r
  exact and_congr_right fun _ => exists_congr fun e => and_congr_left fun _ => h.mem_iff

theorem taken_sorted (src : List Char) (h : Sorted l) :
    Taken (validRanges TextEdit.at (ValidRange src) l)
      {r | ∃ k ∈ kept TextEdit.at (ValidRange src) (size src) l, k.at = r} :=
  taken_kept (fun _ hr => ⟨hr.1, hr.le_size⟩) h

theorem taken_unique {R S : Set Range}
    (hR : Taken (validRanges TextEdit.at (ValidRange src) edits) R)
    (hS : Taken (validRanges TextEdit.at (ValidRange src) edits) S) : R = S :=
  hR.unique (fun _ hr => ⟨hr.1.1.trans hr.1.le_size, hr.1.le_size⟩) hS

theorem taken_edits (src : List Char) (edits : List TextEdit) :
    Taken (validRanges TextEdit.at (ValidRange src) edits)
      {r | ∃ k ∈ kept TextEdit.at (ValidRange src) (size src)
        (edits.mergeSort fun a b => (compareSpans a b).isLE), k.at = r} := by
  rw [← validRanges_perm (List.mergeSort_perm edits fun a b => (compareSpans a b).isLE)]
  exact taken_sorted src (sorted_mergeSort edits)

theorem ValidRange.le (r : Range) (h : ValidRange src r) : r.1 ≤ r.2 := h.1

theorem exists_selection (src : List Char) (edits : List TextEdit) :
    ∃ S D out, (S ++ D).Perm edits ∧
      (∀ e ∈ S, ValidRange src e.at) ∧
      S.Pairwise (fun a b => a.at.2 ≤ b.at.1 ∧ ¬ Overlap a.at b.at) ∧
      (∀ d ∈ D, ValidRange src d.at → ∃ k ∈ S, Overlap k.at d.at) ∧
      applyEdits src edits = some out ∧ substitute src 0 (size src) S = some out := by
  obtain ⟨hsome, heq⟩ := applyEdits_eq src edits
  obtain ⟨out, hout⟩ := Option.isSome_iff_exists.mp hsome
  have hperm := List.mergeSort_perm edits fun a b => (compareSpans a b).isLE
  have hsorted := sorted_mergeSort edits
  rw [replaced] at heq
  generalize (edits.mergeSort fun a b => (compareSpans a b).isLE) = sorted at heq hperm hsorted
  refine ⟨_, dropped TextEdit.at (ValidRange src) (size src) sorted, out, ?_, ?_, ?_, ?_, hout,
    heq.symm.trans hout⟩
  · exact ((List.reverse_perm _).append_right _).trans ((perm_kept_dropped _ _ _ _).trans hperm)
  · exact fun e he => (ok_of_mem_kept ValidRange.le (List.mem_reverse.mp he)).1
  · rw [List.pairwise_reverse]
    exact (pairwise_kept ValidRange.le _ _).imp fun h =>
      ⟨h, fun hover => Nat.not_le.mpr hover.2 h⟩
  · intro d hd hvalid
    obtain hlt | ⟨k, hk, -, hover⟩ := overlap_of_mem_dropped ValidRange.le hsorted hd hvalid
    · exact absurd hvalid.le_size (Nat.not_le.mpr hlt)
    · exact ⟨k, List.mem_reverse.mpr hk, hover⟩

theorem applyEdits_perm (hp : edits'.Perm edits)
    (htaken : Taken (validRanges TextEdit.at (ValidRange src) edits) taken)
    (hagree : ∀ a ∈ edits, ∀ b ∈ edits, a.at = b.at → a.at ∈ taken → Agree a b) :
    applyEdits src edits' = applyEdits src edits := by
  have hperm := fun l : List TextEdit => List.mergeSort_perm l fun a b => (compareSpans a b).isLE
  rw [(applyEdits_eq src edits).2, (applyEdits_eq src edits').2]
  refine (replaced_perm ((hperm edits).trans (hp.symm.trans (hperm edits').symm))
    (sorted_mergeSort edits) (sorted_mergeSort edits') fun a ha b hb hab hkept => ?_).symm
  refine hagree a ((hperm edits).mem_iff.mp ha) b ((hperm edits).mem_iff.mp hb) hab ?_
  rw [taken_unique htaken (taken_edits src edits)]
  exact hkept

theorem agree_of_applyEdits
    (h : ∀ edits', edits'.Perm edits → applyEdits src edits' = applyEdits src edits)
    (htaken : Taken (validRanges TextEdit.at (ValidRange src) edits) taken)
    {a b : TextEdit} (ha : a ∈ edits) (hb : b ∈ edits) (hab : a.at = b.at) (hr : a.at ∈ taken) :
    Agree a b := by
  by_cases hne : a = b
  · exact hne ▸ Agree.refl a
  obtain ⟨l, m, hp, hs, hs', hl⟩ := exists_arrangement ha hb hne hab
  have heq := (h _ hp).trans (h _ ((List.Perm.swap a b m).append_left l |>.trans hp)).symm
  rw [(applyEdits_eq src _).2, (applyEdits_eq src _).2, hs.mergeSort_eq, hs'.mergeSort_eq] at heq
  obtain ⟨p, q, back, hcut, hlimit, hrest⟩ := replaced_append (List.append_nil src).symm l
  rw [hrest, hrest] at heq
  have hpair := Option.map_injective (List.append_left_injective back) heq
  have hmem := taken_unique htaken (validRanges_perm hp ▸ taken_sorted src hs)
  rw [hmem] at hr
  obtain ⟨k, hk, hka⟩ := hr
  rw [kept_append, hlimit] at hk
  rcases List.mem_append.mp hk with hk | hk
  · exact absurd hka (hl k (mem_of_mem_kept hk))
  · have hvalid := ok_of_mem_kept ValidRange.le hk
    rw [hka] at hvalid
    exact agree_of_replaced hcut hvalid hab hpair

/-- Edits are applied as one substitution of ranges of the source, whatever they are; and their
order makes no difference just where those of a range taken agree. -/
theorem applyEdits_substitutes (src : List Char) (edits : List TextEdit) :
    (∃ S D out, (S ++ D).Perm edits ∧
      (∀ e ∈ S, ValidRange src e.at) ∧
      S.Pairwise (fun a b => a.at.2 ≤ b.at.1 ∧ ¬ Overlap a.at b.at) ∧
      (∀ d ∈ D, ValidRange src d.at → ∃ k ∈ S, Overlap k.at d.at) ∧
      applyEdits src edits = some out ∧ substitute src 0 (size src) S = some out) ∧
    ((∀ edits', edits'.Perm edits → applyEdits src edits' = applyEdits src edits) ↔
      ∃ taken, Taken (validRanges TextEdit.at (ValidRange src) edits) taken ∧
        ∀ a ∈ edits, ∀ b ∈ edits, a.at = b.at → a.at ∈ taken → Agree a b) := by
  refine ⟨exists_selection src edits, fun h => ?_, fun ⟨taken, htaken, hagree⟩ edits' hp => ?_⟩
  · exact ⟨_, taken_edits src edits, fun a ha b hb hab hr =>
      agree_of_applyEdits h (taken_edits src edits) ha hb hab hr⟩
  · exact applyEdits_perm hp htaken hagree

/-- Two insertions at one place come out in the order of the list. -/
theorem applyEdits_insertions :
    applyEdits "x".toList [⟨⟨0, 0⟩, ['a']⟩, ⟨⟨0, 0⟩, ['b']⟩] = some "bax".toList ∧
    applyEdits "x".toList [⟨⟨0, 0⟩, ['b']⟩, ⟨⟨0, 0⟩, ['a']⟩] = some "abx".toList := by
  have hrun : ∀ a b : TextEdit, a.at = b.at → applyEdits "x".toList [a, b] =
      ([a, b].foldlM applyEdit ("x".toList, none)).map Prod.fst := by
    intro a b hab
    have hsorted : Sorted [a, b] := .cons (by simpa using .of_eq hab) (.cons nofun .nil)
    rw [applyEdits, if_neg (by simp), hsorted.mergeSort_eq]
  refine ⟨(hrun _ _ ?_).trans ?_, (hrun _ _ ?_).trans ?_⟩ <;> decide

end AScript.Check
