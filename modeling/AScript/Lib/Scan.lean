import Mathlib.Data.List.Basic

universe u v w

namespace AScript.Lib

variable {m : Type u → Type v} [Monad m] {σ : Type u} {α : Type w} {ε : Type v}

def scanFor (step : σ → α → List α → m (σ × Nat)) : Nat → σ → List α → m σ
  | fuel + 1, st, c :: cs => do
    let (st, more) ← step st c cs
    scanFor step fuel st (cs.drop more)
  | _, st, _ => pure st

def scan (step : σ → α → List α → m (σ × Nat)) (st : σ) (cs : List α) : m σ :=
  scanFor step cs.length st cs

variable {step : σ → α → List α → m (σ × Nat)}

theorem scanFor_enough (h : cs.length ≤ fuel) (h' : cs.length ≤ other) :
    scanFor step fuel st cs = scanFor step other st cs := by
  induction fuel generalizing st cs other with
  | zero =>
    obtain rfl := List.length_eq_zero_iff.mp (Nat.le_zero.mp h)
    cases other <;> rfl
  | succ fuel ih =>
    cases cs with
    | nil => cases other <;> rfl
    | cons c cs =>
      cases other with
      | zero => exact absurd h' (by simp)
      | succ other =>
        rw [List.length_cons] at h h'
        simp only [scanFor]
        congr 1
        funext ⟨st', more⟩
        exact ih (by rw [List.length_drop]; omega) (by rw [List.length_drop]; omega)

theorem scan_cons :
    scan step st (c :: cs) = step st c cs >>= fun r => scan step r.1 (cs.drop r.2) := by
  rw [scan]
  simp only [List.length_cons, scanFor]
  congr 1
  funext ⟨st', more⟩
  exact scanFor_enough (by rw [List.length_drop]; omega) (Nat.le_refl _)

theorem scan_induct {step : σ → α → List α → Id (σ × Nat)} {P : σ → List α → Prop}
    (hstep : ∀ st c cs, P st (c :: cs) → P (step st c cs).1 (cs.drop (step st c cs).2))
    (h : P st cs) : P (scan step st cs) [] := by
  generalize hn : cs.length = n
  induction n using Nat.strongRecOn generalizing st cs with
  | ind n ih =>
    cases cs with
    | nil => exact h
    | cons c cs =>
      rw [scan_cons]
      refine ih _ ?_ (hstep st c cs h) rfl
      rw [List.length_cons] at hn
      rw [List.length_drop]
      omega

end AScript.Lib
