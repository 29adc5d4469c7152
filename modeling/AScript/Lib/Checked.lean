universe u v w

namespace AScript.Lib

variable {ε : Type u} {α β : Type v}

theorem bind_ok {x : Except ε α} {f : α → Except ε β} :
    x >>= f = .ok b ↔ ∃ a, x = .ok a ∧ f a = .ok b := by
  cases x with
  | error e => exact ⟨fun h => (nomatch h), fun ⟨_, h, _⟩ => (nomatch h)⟩
  | ok a => exact ⟨fun h => ⟨a, rfl, h⟩, fun ⟨_, rfl, h⟩ => h⟩

theorem bind_error {x : Except ε α} {f : α → Except ε β} :
    x >>= f = .error e ↔ x = .error e ∨ ∃ a, x = .ok a ∧ f a = .error e := by
  cases x with
  | error e' =>
    refine ⟨fun h => .inl (by cases h; rfl), fun h => ?_⟩
    cases h with
    | inl h => cases h; rfl
    | inr h => obtain ⟨_, h, -⟩ := h; cases h
  | ok a =>
    refine ⟨fun h => .inr ⟨a, rfl, h⟩, fun h => ?_⟩
    cases h with
    | inl h => cases h
    | inr h => obtain ⟨_, h, h'⟩ := h; cases h; exact h'

theorem pure_ok {a b : α} : (pure a : Except ε α) = .ok b ↔ a = b :=
  ⟨fun h => by cases h; rfl, fun h => by rw [h]; rfl⟩

theorem forM_ok {f : α → Except ε PUnit} {l : List α} (h : l.forM f = .ok ⟨⟩) (ha : a ∈ l) :
    f a = .ok ⟨⟩ := by
  induction l with
  | nil => cases ha
  | cons x l ih =>
    obtain ⟨_, hx, hl⟩ := bind_ok.mp h
    cases ha with
    | head => exact hx
    | tail _ ha => exact ih hl ha

theorem forM_of_ok {f : α → Except ε PUnit} {l : List α} (h : ∀ a ∈ l, f a = .ok ⟨⟩) :
    l.forM f = .ok ⟨⟩ := by
  induction l with
  | nil => rfl
  | cons x l ih =>
    obtain ⟨hx, hl⟩ := List.forall_mem_cons.mp h
    exact bind_ok.mpr ⟨_, hx, ih hl⟩

end AScript.Lib
