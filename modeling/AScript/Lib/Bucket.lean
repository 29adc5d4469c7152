import Mathlib.Algebra.Order.Field.Basic
import Mathlib.Tactic.Linarith
import Mathlib.Tactic.Ring

universe u

namespace AScript.Lib

structure Bucket (K : Type u) where
  tokens : K
  last : K

namespace Bucket

variable {K : Type u} [Field K] [LinearOrder K]

def refill (capacity rate : K) (b : Bucket K) (now : K) : Bucket K :=
  ⟨min (b.tokens + max (now - b.last) 0 * rate) capacity, now⟩

def spend (b : Bucket K) (n : K) : Bucket K := { b with tokens := b.tokens - n }

abbrev Ledger (K : Type u) := List (K × K)

def since (l : Ledger K) (t₀ : K) : K := ((l.filter fun g => t₀ ≤ g.1).map Prod.snd).sum

/-- What was granted from `t₀` to `t₁`. -/
def within (l : Ledger K) (t₀ t₁ : K) : K :=
  ((l.filter fun g => t₀ ≤ g.1 ∧ g.1 ≤ t₁).map Prod.snd).sum

structure Sound (capacity rate : K) (b : Bucket K) (l : Ledger K) (clock : K) : Prop where
  nonneg : 0 ≤ b.tokens
  le_capacity : b.tokens ≤ capacity
  past : ∀ g ∈ l, g.1 ≤ b.last
  settled : b.last ≤ clock ∨ l = []
  budget : ∀ t, since l t + b.tokens ≤ capacity + max (b.last - t) 0 * rate
  bound : ∀ t₀ t₁, t₀ ≤ t₁ → within l t₀ t₁ ≤ capacity + (t₁ - t₀) * rate

theorem since_append (l : Ledger K) (t₀ t n : K) :
    since (l ++ [(t, n)]) t₀ = since l t₀ + if t₀ ≤ t then n else 0 := by
  simp only [since, List.filter_append, List.map_append, List.sum_append]
  split <;> simp [*]

theorem within_append (l : Ledger K) (t₀ t₁ t n : K) :
    within (l ++ [(t, n)]) t₀ t₁ = within l t₀ t₁ + if t₀ ≤ t ∧ t ≤ t₁ then n else 0 := by
  simp only [within, List.filter_append, List.map_append, List.sum_append]
  split <;> simp [*]

variable {capacity rate : K} {b : Bucket K} {l : Ledger K} {clock : K}

theorem since_eq_zero (h : ∀ g ∈ l, g.1 < t) : since l t = (0 : K) := by
  rw [since, List.filter_eq_nil_iff.mpr fun g hg => by simpa using h g hg]
  rfl

theorem within_eq_since (h : ∀ g ∈ l, g.1 ≤ t₁) (t₀ : K) : within l t₀ t₁ = since l t₀ := by
  rw [within, since]
  congr 2
  apply List.filter_congr
  intro g hg
  simp [h g hg]

theorem Sound.advance (h : Sound capacity rate b l clock) (hle : clock ≤ clock') :
    Sound capacity rate b l clock' :=
  ⟨h.nonneg, h.le_capacity, h.past, h.settled.imp_left (le_trans · hle), h.budget, h.bound⟩

variable [IsStrictOrderedRing K]

theorem Sound.full (hc : 0 ≤ capacity) (hr : 0 ≤ rate) (last clock : K) :
    Sound capacity rate ⟨capacity, last⟩ [] clock where
  nonneg := hc
  le_capacity := le_refl _
  past _ hg := nomatch hg
  settled := .inr rfl
  budget t := by
    have hpos : 0 ≤ max (last - t) 0 * rate := mul_nonneg (le_max_right ..) hr
    simp only [since, List.filter_nil, List.map_nil, List.sum_nil]
    linarith
  bound t₀ t₁ h := by
    have hpos : 0 ≤ (t₁ - t₀) * rate := mul_nonneg (sub_nonneg.mpr h) hr
    simp only [within, List.filter_nil, List.map_nil, List.sum_nil]
    linarith

theorem Sound.refill (hr : 0 ≤ rate) (h : Sound capacity rate b l clock) :
    Sound capacity rate (b.refill capacity rate clock) l clock where
  nonneg := by
    have hpos : 0 ≤ max (clock - b.last) 0 * rate := mul_nonneg (le_max_right ..) hr
    have hn := h.nonneg
    have hc := h.nonneg.trans h.le_capacity
    exact le_min (by linarith) hc
  le_capacity := min_le_right ..
  past g hg := by
    cases h.settled with
    | inl hle => exact (h.past g hg).trans hle
    | inr hl => rw [hl] at hg; cases hg
  settled := .inl (le_refl _)
  budget t := by
    have hb := h.budget t
    have hmin₁ : (b.refill capacity rate clock).tokens ≤
        b.tokens + max (clock - b.last) 0 * rate := min_le_left ..
    have hmin₂ : (b.refill capacity rate clock).tokens ≤ capacity := min_le_right ..
    have hpos : 0 ≤ max (clock - t) 0 * rate := mul_nonneg (le_max_right ..) hr
    show since l t + _ ≤ capacity + max (clock - t) 0 * rate
    by_cases hlt : t ≤ b.last ∧ b.last ≤ clock
    · have hmul : max (clock - t) 0 * rate =
          max (b.last - t) 0 * rate + max (clock - b.last) 0 * rate := by
        rw [max_eq_left (by linarith), max_eq_left (by linarith), max_eq_left (by linarith)]
        ring
      linarith
    · have hzero : since l t = 0 := by
        apply since_eq_zero
        intro g hg
        cases h.settled with
        | inl hle => exact (h.past g hg).trans_lt (not_le.mp fun ht => hlt ⟨ht, hle⟩)
        | inr hl => rw [hl] at hg; cases hg
      linarith
  bound := h.bound

theorem Sound.spend (hr : 0 ≤ rate) (h : Sound capacity rate b l clock) (hlast : b.last = clock)
    (hn : 0 ≤ n) (hle : n ≤ b.tokens) :
    Sound capacity rate (b.spend n) (l ++ [(clock, n)]) clock where
  nonneg := sub_nonneg.mpr hle
  le_capacity := (sub_le_self _ hn).trans h.le_capacity
  past g hg := by
    cases List.mem_append.mp hg with
    | inl hg => exact h.past g hg
    | inr hg =>
      cases List.mem_singleton.mp hg
      exact hlast.ge
  settled := .inl hlast.le
  budget t := by
    have hb := h.budget t
    show since (l ++ [(clock, n)]) t + (b.tokens - n) ≤ capacity + max (b.last - t) 0 * rate
    rw [since_append]
    split <;> linarith
  bound t₀ t₁ ht := by
    have hw := h.bound t₀ t₁ ht
    rw [within_append]
    split
    next hin =>
      have hb := h.budget t₀
      have hpast : ∀ g ∈ l, g.1 ≤ t₁ := fun g hg => (h.past g hg).trans (hlast ▸ hin.2)
      have hmul : max (b.last - t₀) 0 * rate ≤ (t₁ - t₀) * rate :=
        mul_le_mul_of_nonneg_right (max_le (by linarith [hin.2]) (by linarith)) hr
      rw [within_eq_since hpast]
      linarith
    next => linarith

end Bucket

end AScript.Lib
