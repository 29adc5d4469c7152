universe u v w

namespace AScript.Lib

inductive Outcome (σ : Type u) (δ : Type v)
  | «at» (s : σ)
  | done (d : δ)

variable {σ : Type u} {τ : Type w} {δ : Type v}

namespace Outcome

def map (π : τ → σ) : Outcome τ δ → Outcome σ δ
  | .at t => .at (π t)
  | .done d => .done d

def andThen (f : σ → Outcome τ δ) : Outcome σ δ → Outcome τ δ
  | .at s => f s
  | .done d => .done d

def iterate (step : σ → Outcome σ δ) : Nat → σ → Outcome σ δ
  | 0, s => .at s
  | n + 1, s => (step s).andThen (iterate step n)

/-- The states before each of the steps made. -/
def trace (step : σ → Outcome σ δ) : Nat → σ → List σ
  | 0, _ => []
  | n + 1, s =>
    s :: match step s with
      | .at s' => trace step n s'
      | .done _ => []

variable {step : σ → Outcome σ δ} {s s' : σ}

theorem iterate_succ_at (h : step s = .at s') : iterate step (n + 1) s = iterate step n s' := by
  rw [iterate, h, andThen]

theorem iterate_succ_done (h : step s = .done d) : iterate step (n + 1) s = .done d := by
  rw [iterate, h, andThen]

theorem iterate_one : iterate step 1 = step := by
  funext s
  rw [iterate]
  cases step s <;> rfl

theorem trace_succ_at (h : step s = .at s') : trace step (n + 1) s = s :: trace step n s' := by
  simp only [trace, h]

theorem trace_succ_done (h : step s = .done d) : trace step (n + 1) s = [s] := by
  simp only [trace, h]

theorem trace_head (n : Nat) : trace step (n + 1) s = s :: (trace step (n + 1) s).tail := rfl

theorem iterate_add_at (h : iterate step m s = .at s') :
    iterate step (m + n) s = iterate step n s' ∧
      trace step (m + n) s = trace step m s ++ trace step n s' := by
  induction m generalizing s with
  | zero =>
    cases h
    rw [Nat.zero_add]
    exact ⟨rfl, rfl⟩
  | succ m ih =>
    rw [Nat.add_right_comm]
    cases hs : step s with
    | «at» s₁ =>
      rw [iterate_succ_at hs] at h ⊢
      rw [trace_succ_at hs, trace_succ_at hs, List.cons_append]
      exact ⟨(ih h).1, congrArg _ (ih h).2⟩
    | done d =>
      rw [iterate_succ_done hs] at h
      cases h

theorem iterate_add_done (h : iterate step m s = .done d) :
    iterate step (m + n) s = .done d ∧ trace step (m + n) s = trace step m s := by
  induction m generalizing s with
  | zero => cases h
  | succ m ih =>
    rw [Nat.add_right_comm]
    cases hs : step s with
    | «at» s₁ =>
      rw [iterate_succ_at hs] at h ⊢
      rw [trace_succ_at hs, trace_succ_at hs]
      exact ⟨(ih h).1, congrArg _ (ih h).2⟩
    | done d' =>
      rw [iterate_succ_done hs] at h ⊢
      exact ⟨h, (trace_succ_done hs).trans (trace_succ_done hs).symm⟩

end Outcome

/-- The second list is the first without some of the entries that may be left out. -/
inductive Thins {α : Type u} (P : α → Prop) : List α → List α → Prop
  | nil : Thins P [] []
  | keep : Thins P xs ys → Thins P (x :: xs) (x :: ys)
  | skip : P x → Thins P xs ys → Thins P (x :: xs) ys

theorem Thins.skips {α : Type u} {P : α → Prop} {xs ys ms : List α} (h : Thins P xs ys)
    (hm : ∀ x ∈ ms, P x) :
    Thins P (ms ++ xs) ys := by
  induction ms with
  | nil => exact h
  | cons m ms ih =>
    exact .skip (hm m List.mem_cons_self) (ih fun x hx => hm x (List.mem_cons_of_mem _ hx))

namespace Outcome

variable (step : σ → Outcome σ δ) (step' : τ → Outcome τ δ) (π : τ → σ)

def Covers (P : σ → Prop) (t : τ) : Prop :=
  ∃ k, iterate step (k + 1) (π t) = (step' t).map π ∧
    ∀ s ∈ (trace step (k + 1) (π t)).tail, P s

variable {step step' π}

theorem coarse_run {P : σ → Prop} {I : τ → Prop} (hc : ∀ t, I t → Covers step step' π P t)
    (hi : ∀ t t', I t → step' t = .at t' → I t') (n : Nat) (ht : I t) :
    ∃ m, n ≤ m ∧ (iterate step' n t).map π = iterate step m (π t) ∧
      Thins P (trace step m (π t)) ((trace step' n t).map π) := by
  induction n generalizing t with
  | zero => exact ⟨0, Nat.le_refl 0, rfl, .nil⟩
  | succ n ih =>
    obtain ⟨k, hk, hmid⟩ := hc t ht
    cases hs : step' t with
    | «at» t' =>
      obtain ⟨m, hm, hrun, hthin⟩ := ih (hi t t' ht hs)
      rw [hs] at hk
      obtain ⟨hadd, htr⟩ := iterate_add_at (n := m) hk
      refine ⟨k + 1 + m, by omega, ?_, ?_⟩
      · rw [iterate_succ_at hs, hadd, hrun]
      · rw [htr, trace_head, trace_succ_at hs, List.map_cons, List.cons_append]
        exact .keep (hthin.skips hmid)
    | done d =>
      rw [hs] at hk
      obtain ⟨hadd, htr⟩ := iterate_add_done (n := n) hk
      refine ⟨k + 1 + n, by omega, ?_, ?_⟩
      · rw [iterate_succ_done hs, hadd]
        rfl
      · rw [htr, trace_head, trace_succ_done hs]
        have := Thins.skips (.nil : Thins P [] []) hmid
        rw [List.append_nil] at this
        exact .keep this

end Outcome
end AScript.Lib
