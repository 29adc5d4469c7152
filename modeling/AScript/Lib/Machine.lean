import Mathlib.Data.List.Forall2

universe u v w x

namespace AScript.Lib

structure Machine (σ : Type u) (ι : Type v) (ω : Type w) where
  step : σ → ι → Option (ω × σ)

def Matches (R : σ → τ → Prop) : Option (ω × σ) → Option (ω × τ) → Prop
  | none, none => True
  | some (o, s), some (o', t) => o = o' ∧ R s t
  | _, _ => False

namespace Machine

variable {σ : Type u} {τ : Type x} {ι : Type v} {ω : Type w}

def run (M : Machine σ ι ω) : σ → List ι → Option (List ω × σ)
  | s, [] => some ([], s)
  | s, i :: is =>
    match M.step s i with
    | none => none
    | some (o, s') => (M.run s' is).map fun r => (o :: r.1, r.2)

def Simulates (A : Machine σ ι ω) (B : Machine τ ι ω) (R : σ → τ → Prop) : Prop :=
  ∀ s t i, R s t → Matches R (A.step s i) (B.step t i)

theorem Simulates.run {A : Machine σ ι ω} {B : Machine τ ι ω} (h : A.Simulates B R)
    (hr : R s t) (is : List ι) : Matches R (A.run s is) (B.run t is) := by
  induction is generalizing s t with
  | nil => exact ⟨rfl, hr⟩
  | cons i is ih =>
    have hi := h s t i hr
    simp only [Machine.run]
    cases hA : A.step s i with
    | none =>
      cases hB : B.step t i with
      | none => trivial
      | some q =>
        rw [hA, hB] at hi
        cases hi
    | some p =>
      cases hB : B.step t i with
      | none =>
        rw [hA, hB] at hi
        cases hi
      | some q =>
        rw [hA, hB] at hi
        obtain ⟨ho, hr'⟩ := hi
        have hrun := ih hr'
        simp only
        cases hA' : A.run p.2 is with
        | none =>
          cases hB' : B.run q.2 is with
          | none => trivial
          | some q' =>
            rw [hA', hB'] at hrun
            cases hrun
        | some p' =>
          cases hB' : B.run q.2 is with
          | none =>
            rw [hA', hB'] at hrun
            cases hrun
          | some q' =>
            rw [hA', hB'] at hrun
            exact ⟨by rw [ho, hrun.1], hrun.2⟩

theorem run_invariant (M : Machine σ ι ω) {I : σ → Prop}
    (hstep : ∀ s i o s', I s → M.step s i = some (o, s') → I s')
    (hs : I s) (hr : M.run s is = some (os, s')) : I s' := by
  induction is generalizing s os with
  | nil =>
    cases hr
    exact hs
  | cons i is ih =>
    rw [Machine.run] at hr
    split at hr
    · cases hr
    · rename_i o s₁ h₁
      obtain ⟨r, hr', he⟩ := Option.map_eq_some_iff.mp hr
      cases he
      exact ih (hstep s i o s₁ hs h₁) hr'

theorem run_history (M : Machine σ ι ω) {I : List ω → σ → Prop}
    (hstep : ∀ past s i o s', I past s → M.step s i = some (o, s') → I (past ++ [o]) s')
    (past : List ω) (hs : I past s) (hr : M.run s is = some (os, s')) : I (past ++ os) s' := by
  induction is generalizing past s os with
  | nil =>
    cases hr
    rwa [List.append_nil]
  | cons i is ih =>
    rw [Machine.run] at hr
    split at hr
    · cases hr
    · rename_i o s₁ h₁
      obtain ⟨r, hr', he⟩ := Option.map_eq_some_iff.mp hr
      cases he
      rw [List.append_cons]
      exact ih _ (hstep past s i o s₁ hs h₁) hr'

/-- Every step of the run over these inputs meets a condition on the state before it. -/
def Along (M : Machine σ ι ω) (P : σ → ι → Prop) : σ → List ι → Prop
  | _, [] => True
  | s, i :: is => P s i ∧ ∀ o s', M.step s i = some (o, s') → M.Along P s' is

theorem along_congr (M : Machine σ ι ω) {P Q : σ → ι → Prop} (h : ∀ s i, P s i ↔ Q s i) :
    M.Along P s is ↔ M.Along Q s is := by
  induction is generalizing s with
  | nil => exact Iff.rfl
  | cons i is ih => exact and_congr (h s i) (forall₃_congr fun _ _ _ => ih)

theorem along_of_forall (M : Machine σ ι ω) {P : σ → ι → Prop} (h : ∀ s, ∀ i ∈ is, P s i) :
    M.Along P s is := by
  induction is generalizing s with
  | nil => trivial
  | cons i is ih =>
    exact ⟨h s i (.head is), fun _ _ _ => ih fun s j hj => h s j (.tail i hj)⟩

theorem along_cons_of_step {M : Machine σ ι ω} {P : σ → ι → Prop} (h : M.step s i = some (o, s')) :
    (∀ o₁ s₁, M.step s i = some (o₁, s₁) → M.Along P s₁ is) ↔ M.Along P s' is := by
  refine ⟨fun hall => hall o s' h, fun ha o₁ s₁ h₁ => ?_⟩
  cases h.symm.trans h₁
  exact ha

instance decidableAlong (M : Machine σ ι ω) (P : σ → ι → Prop) [∀ s i, Decidable (P s i)] :
    ∀ s is, Decidable (M.Along P s is)
  | _, [] => isTrue trivial
  | s, i :: is =>
    have : Decidable (∀ o s', M.step s i = some (o, s') → M.Along P s' is) :=
      match h : M.step s i with
      | none => isTrue fun _ _ h' => by cases h'
      | some (_, s') =>
        have := M.decidableAlong P s' is
        decidable_of_iff (M.Along P s' is) (by rw [← h]; exact (along_cons_of_step h).symm)
    inferInstanceAs (Decidable (P s i ∧ _))

theorem run_along (M : Machine σ ι ω) {P : σ → ι → Prop} {Q : ω → Prop} {I : σ → Prop}
    (hstep : ∀ s i o s', I s → P s i → M.step s i = some (o, s') → Q o ∧ I s')
    (hs : I s) (hp : M.Along P s is) (hr : M.run s is = some (os, s')) :
    (∀ o ∈ os, Q o) ∧ I s' := by
  induction is generalizing s os with
  | nil =>
    cases hr
    exact ⟨fun o ho => (nomatch ho), hs⟩
  | cons i is ih =>
    rw [Machine.run] at hr
    split at hr
    · cases hr
    · rename_i o s₁ h₁
      obtain ⟨r, hr', he⟩ := Option.map_eq_some_iff.mp hr
      cases he
      obtain ⟨ho, hs₁⟩ := hstep s i o s₁ hs hp.1 h₁
      obtain ⟨hos, hs'⟩ := ih hs₁ (hp.2 o s₁ h₁) hr'
      exact ⟨List.forall_mem_cons.mpr ⟨ho, hos⟩, hs'⟩

end Machine

theorem Matches.map_fst {p : Option (ω × σ)} {q : Option (ω × τ)} (h : Matches R p q) :
    p.map Prod.fst = q.map Prod.fst := by
  match p, q with
  | none, none => rfl
  | some (_, _), some (_, _) => exact congrArg some h.1
  | none, some _ => cases h
  | some _, none => cases h

theorem Matches.related {p : Option (ω × σ)} {q : Option (ω × τ)} (h : Matches R p q)
    (hp : p = some (o, s)) : ∃ t, q = some (o, t) ∧ R s t := by
  subst hp
  match q with
  | none => cases h
  | some (o', t) => exact ⟨t, by rw [h.1], h.2⟩

theorem forall₂_getElem? {l : List σ} {l' : List τ} (h : List.Forall₂ R l l') (i : Nat) :
    (l[i]? = none ∧ l'[i]? = none) ∨ ∃ a b, l[i]? = some a ∧ l'[i]? = some b ∧ R a b := by
  induction h generalizing i with
  | nil => exact .inl ⟨by simp, by simp⟩
  | cons hab _ ih =>
    cases i with
    | zero => exact .inr ⟨_, _, rfl, rfl, hab⟩
    | succ i => simpa using ih i

theorem forall₂_set {l : List σ} {l' : List τ} (h : List.Forall₂ R l l') (hab : R a b) (i : Nat) :
    List.Forall₂ R (l.set i a) (l'.set i b) := by
  induction h generalizing i with
  | nil => exact .nil
  | cons hxy hl ih =>
    cases i with
    | zero => exact .cons hab hl
    | succ i => exact .cons hxy (ih i)

theorem forall₂_append_one {l : List σ} {l' : List τ} (h : List.Forall₂ R l l') (hab : R a b) :
    List.Forall₂ R (l ++ [a]) (l' ++ [b]) :=
  List.rel_append h (.cons hab .nil)

end AScript.Lib
