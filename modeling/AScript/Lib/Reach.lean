import AScript.Lib.Coarse

universe u v w

namespace AScript.Lib

variable {σ : Type u} {δ : Type v} {β : Type w}

def Reaches (step : σ → Outcome σ δ) (k : Nat) (s s' : σ) : Prop :=
  ∃ n, k ≤ n ∧ Outcome.iterate step n s = .at s'

def Ends (step : σ → Outcome σ δ) (s : σ) (d : δ) : Prop := ∃ n, Outcome.iterate step n s = .done d

def RunsFor (step : σ → Outcome σ δ) (k : Nat) (s : σ) : Prop := ∃ s', Reaches step k s s'

variable {step : σ → Outcome σ δ} {s s' s'' : σ}

theorem Reaches.refl (s : σ) : Reaches step 0 s s := ⟨0, Nat.le_refl 0, rfl⟩

theorem Reaches.of_step (h : step s = .at s') : Reaches step 1 s s' :=
  ⟨1, Nat.le_refl 1, by rw [Outcome.iterate_succ_at h]; rfl⟩

theorem Reaches.weaken (h : Reaches step k s s') (hk : j ≤ k) : Reaches step j s s' := by
  obtain ⟨n, hn, hr⟩ := h
  exact ⟨n, Nat.le_trans hk hn, hr⟩

theorem Reaches.trans (h : Reaches step j s s') (h' : Reaches step k s' s'') :
    Reaches step (j + k) s s'' := by
  obtain ⟨m, hm, hr⟩ := h
  obtain ⟨n, hn, hr'⟩ := h'
  exact ⟨m + n, Nat.add_le_add hm hn, (Outcome.iterate_add_at hr).1.trans hr'⟩

theorem Ends.of_step (h : step s = .done d) : Ends step s d :=
  ⟨1, Outcome.iterate_succ_done h⟩

theorem Reaches.ends (h : Reaches step k s s') (h' : Ends step s' d) : Ends step s d := by
  obtain ⟨m, -, hr⟩ := h
  obtain ⟨n, hr'⟩ := h'
  exact ⟨m + n, (Outcome.iterate_add_at hr).1.trans hr'⟩

theorem Reaches.runsFor (h : Reaches step j s s') (h' : RunsFor step k s') :
    RunsFor step (j + k) s := by
  obtain ⟨t, ht⟩ := h'
  exact ⟨t, h.trans ht⟩

theorem RunsFor.weaken (h : RunsFor step k s) (hk : j ≤ k) : RunsFor step j s := by
  obtain ⟨t, ht⟩ := h
  exact ⟨t, ht.weaken hk⟩

theorem iterate_done_of_le (h : Outcome.iterate step n s = .done d) (hn : n ≤ m) :
    Outcome.iterate step m s = .done d := by
  obtain ⟨k, rfl⟩ := Nat.exists_eq_add_of_le hn
  exact (Outcome.iterate_add_done h).1

theorem Ends.unique (h : Ends step s d) (h' : Ends step s d') : d = d' := by
  obtain ⟨m, hm⟩ := h
  obtain ⟨n, hn⟩ := h'
  have hm' := iterate_done_of_le hm (Nat.le_max_left m n)
  have hn' := iterate_done_of_le hn (Nat.le_max_right m n)
  rw [hm'] at hn'
  cases hn'
  rfl

theorem Ends.not_runsFor (h : Ends step s d) : ∃ k, ¬ RunsFor step k s := by
  obtain ⟨n, hn⟩ := h
  refine ⟨n, fun ⟨t, m, hm, ht⟩ => ?_⟩
  rw [iterate_done_of_le hn hm] at ht
  cases ht

theorem agrees {eval : Nat → Option β} {view : δ → Option β}
    (hresult : ∀ fuel o, eval fuel = some o → ∃ d, Ends step s d ∧ view d = some o)
    (hlong : ∀ fuel, eval fuel = none → RunsFor step fuel s) (o : β) :
    ((∃ fuel, eval fuel = some o) ↔ ∃ d, Ends step s d ∧ view d = some o) ∧
      ∀ d, Ends step s d → ∃ o, view d = some o := by
  have hback : ∀ d, Ends step s d → ∃ fuel o, eval fuel = some o ∧ view d = some o := by
    intro d hd
    obtain ⟨k, hk⟩ := hd.not_runsFor
    cases he : eval k with
    | none => exact absurd (hlong k he) hk
    | some o =>
      obtain ⟨d', hd', ho⟩ := hresult k o he
      cases hd.unique hd'
      exact ⟨k, o, he, ho⟩
  refine ⟨⟨fun ⟨fuel, he⟩ => hresult fuel o he, fun ⟨d, hd, ho⟩ => ?_⟩, fun d hd => ?_⟩
  · obtain ⟨fuel, o', he, ho'⟩ := hback d hd
    rw [ho] at ho'
    cases ho'
    exact ⟨fuel, he⟩
  · obtain ⟨_, o, _, ho⟩ := hback d hd
    exact ⟨o, ho⟩

end AScript.Lib
