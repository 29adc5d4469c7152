import Mathlib.Order.Antisymmetrization

namespace AScript.Lib

universe u v

structure IsMeet [Preorder α] (m : α → α → α) : Prop where
  left : m a b ≤ a
  right : m a b ≤ b
  greatest : c ≤ a → c ≤ b → c ≤ m a b

namespace IsMeet

variable {α : Type u} {β : Type v} [Preorder α] {m : α → α → α} (h : IsMeet m)

include h

theorem mono (ha : a ≤ a') (hb : b ≤ b') : m a b ≤ m a' b' :=
  h.greatest (h.left.trans ha) (h.right.trans hb)

theorem comm (a b : α) : AntisymmRel (· ≤ ·) (m a b) (m b a) :=
  ⟨h.greatest h.right h.left, h.greatest h.right h.left⟩

theorem assoc (a b c : α) : AntisymmRel (· ≤ ·) (m (m a b) c) (m a (m b c)) :=
  ⟨h.greatest (h.left.trans h.left) (h.mono h.right le_rfl),
    h.greatest (h.mono le_rfl h.left) (h.right.trans h.right)⟩

theorem self (a : α) : AntisymmRel (· ≤ ·) (m a a) a :=
  ⟨h.left, h.greatest le_rfl le_rfl⟩

end IsMeet

theorem seen_eq [Preorder α] [PartialOrder β] {f : α → β} (hf : Monotone f)
    (h : AntisymmRel (· ≤ ·) a b) : f a = f b :=
  le_antisymm (hf h.1) (hf h.2)

end AScript.Lib
