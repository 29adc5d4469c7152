import Mathlib.Data.List.Lex
import Mathlib.Data.Prod.Lex
import Mathlib.Data.Sum.Order
import Mathlib.Order.Compare

namespace AScript.Lib

variable {α β : Type*} {o o' : Ordering}

theorem compares_of [Ord α] [LinearOrder β] {f : α → β} {a b : α}
    (hlt : compare a b = .lt ↔ f a < f b) (heq : compare a b = .eq ↔ f a = f b) :
    (compare a b).Compares (f a) (f b) := by
  cases h : compare a b with
  | lt => exact hlt.mp h
  | eq => exact heq.mp h
  | gt =>
    rw [h] at hlt heq
    exact lt_of_le_of_ne (not_lt.mp fun hab => nomatch hlt.mpr hab) fun hba =>
      nomatch heq.mpr hba.symm

theorem compares_then [LinearOrder α] [LinearOrder β] {a a' : α} {b b' : β} (h : o.Compares a a')
    (h' : o'.Compares b b') : (o.then o').Compares (toLex (a, b)) (toLex (a', b')) := by
  cases o with
  | lt => exact Prod.Lex.lt_iff.mpr (.inl h)
  | gt => exact Prod.Lex.lt_iff.mpr (.inl h)
  | eq =>
    obtain rfl : a = a' := h
    cases o' with
    | lt => exact Prod.Lex.lt_iff.mpr (.inr ⟨rfl, h'⟩)
    | gt => exact Prod.Lex.lt_iff.mpr (.inr ⟨rfl, h'⟩)
    | eq => exact congrArg (fun x => toLex (a, x)) h'

theorem compares_cons [LinearOrder α] {a b : α} {as bs : List α} (h : o.Compares a b)
    (h' : o'.Compares as bs) : (o.then o').Compares (a :: as) (b :: bs) := by
  cases o with
  | lt => exact .rel h
  | gt => exact .rel h
  | eq =>
    obtain rfl : a = b := h
    cases o' with
    | lt => exact .cons h'
    | gt => exact .cons h'
    | eq => exact congrArg (a :: ·) h'

theorem compares_compareLex [LinearOrder β] {cmp : α → α → Ordering} {f : α → β}
    (h : ∀ a b, (cmp a b).Compares (f a) (f b)) (as bs : List α) :
    (List.compareLex cmp as bs).Compares (as.map f) (bs.map f) := by
  induction as generalizing bs with
  | nil =>
    cases bs with
    | nil => exact rfl
    | cons b bs => exact List.Lex.nil
  | cons a as ih =>
    cases bs with
    | nil => exact List.Lex.nil
    | cons b bs =>
      rw [List.compareLex_cons_cons]
      exact compares_cons (h a b) (ih bs)

end AScript.Lib
