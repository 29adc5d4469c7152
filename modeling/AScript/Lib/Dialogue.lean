import Mathlib.Logic.Basic

universe u v w x

namespace AScript.Lib

variable {σ : Type u} {τ : Type v} {ι : Type w} {ω : Type x}

abbrev Client (ι : Type w) (ω : Type x) := List ω → Option ι

/-- A server may consult the answers so far, and may refuse to go on. -/
abbrev Server (σ : Type u) (ι : Type w) (ω : Type x) := List ω → σ → ι → Option (ω × σ)

structure Turn (σ : Type u) (ι : Type w) (ω : Type x) where
  past : List ω
  before : σ
  query : ι
  answer : ω
  after : σ

/-- At most so many turns, with the state they end in. -/
def converse (S : Server σ ι ω) (C : Client ι ω) : Nat → List ω → σ → List (Turn σ ι ω) × σ
  | 0, _, s => ([], s)
  | n + 1, past, s =>
    match C past with
    | none => ([], s)
    | some i =>
      match S past s i with
      | none => ([], s)
      | some (o, s') =>
        let rest := converse S C n (past ++ [o]) s'
        (⟨past, s, i, o, s'⟩ :: rest.1, rest.2)

def answers (S : Server σ ι ω) (C : Client ι ω) (n : Nat) (past : List ω) (s : σ) : List ω :=
  (converse S C n past s).1.map Turn.answer

section Turns

variable {S : Server σ ι ω} {C : Client ι ω} {n : Nat} {past : List ω} {s s' : σ} {i : ι} {o : ω}

theorem converse_stop (h : C past = none) : converse S C n past s = ([], s) := by
  cases n with
  | zero => rfl
  | succ n => simp only [converse, h]

theorem converse_refuse (hq : C past = some i) (h : S past s i = none) :
    converse S C n past s = ([], s) := by
  cases n with
  | zero => rfl
  | succ n => simp only [converse, hq, h]

theorem converse_turn (hq : C past = some i) (h : S past s i = some (o, s')) :
    converse S C (n + 1) past s =
      (⟨past, s, i, o, s'⟩ :: (converse S C n (past ++ [o]) s').1,
        (converse S C n (past ++ [o]) s').2) := by
  simp only [converse, hq, h]

theorem converse_invariant {I : List ω → σ → Prop}
    (hstep : ∀ past s i o s', I past s → C past = some i → S past s i = some (o, s') →
      I (past ++ [o]) s') (hs : I past s) :
    (∀ t ∈ (converse S C n past s).1,
      I t.past t.before ∧ C t.past = some t.query ∧
        S t.past t.before t.query = some (t.answer, t.after)) ∧
      I (past ++ answers S C n past s) (converse S C n past s).2 := by
  induction n generalizing past s with
  | zero =>
    refine ⟨fun t ht => (nomatch ht), ?_⟩
    simpa [answers, converse] using hs
  | succ n ih =>
    cases hq : C past with
    | none =>
      rw [answers, converse_stop hq]
      exact ⟨fun t ht => (nomatch ht), by simpa using hs⟩
    | some i =>
      cases h : S past s i with
      | none =>
        rw [answers, converse_refuse hq h]
        exact ⟨fun t ht => (nomatch ht), by simpa using hs⟩
      | some r =>
        obtain ⟨hturns, hend⟩ := ih (hstep past s i r.1 r.2 hs hq h)
        rw [answers, converse_turn hq h]
        refine ⟨?_, ?_⟩
        · intro t ht
          cases List.mem_cons.mp ht with
          | inl ht => exact ht ▸ ⟨hs, hq, h⟩
          | inr ht => exact hturns t ht
        · rw [List.map_cons, List.append_cons]
          exact hend

theorem turn_query (h : t ∈ (converse S C n past s).1) : C t.past = some t.query :=
  ((converse_invariant (I := fun _ _ => True) (fun _ _ _ _ _ _ _ _ => trivial) trivial).1 t h).2.1

theorem converse_grows (le : σ → σ → Prop) {I : σ → Prop} (hrefl : ∀ s, le s s)
    (htrans : ∀ a b c, le a b → le b c → le a c)
    (hstep : ∀ past s i o s', I s → S past s i = some (o, s') → le s s' ∧ I s') (hs : I s) :
    le s (converse S C n past s).2 ∧
      ∀ t ∈ (converse S C n past s).1, le t.after (converse S C n past s).2 := by
  induction n generalizing past s with
  | zero => exact ⟨hrefl s, fun t ht => (nomatch ht)⟩
  | succ n ih =>
    cases hq : C past with
    | none =>
      rw [converse_stop hq]
      exact ⟨hrefl s, fun t ht => (nomatch ht)⟩
    | some i =>
      cases h : S past s i with
      | none =>
        rw [converse_refuse hq h]
        exact ⟨hrefl s, fun t ht => (nomatch ht)⟩
      | some r =>
        obtain ⟨hone, hs'⟩ := hstep _ _ _ _ _ hs h
        obtain ⟨hle, hturns⟩ := @ih (past ++ [r.1]) _ hs'
        rw [converse_turn hq h]
        refine ⟨htrans _ _ _ hone hle, fun t ht => ?_⟩
        cases ht with
        | head => exact hle
        | tail _ ht => exact hturns t ht

theorem converse_follow {T : Server τ ι ω} {R : List ω → σ → τ → Prop}
    {P : Turn σ ι ω → Prop} {t : τ}
    (hstep : ∀ past s i o s' t, R past s t → C past = some i → P ⟨past, s, i, o, s'⟩ →
      S past s i = some (o, s') → ∃ t', T past t i = some (o, t') ∧ R (past ++ [o]) s' t')
    (hstuck : ∀ past s i t, R past s t → S past s i = none → T past t i = none)
    (hr : R past s t) (hp : ∀ t ∈ (converse S C n past s).1, P t) :
    answers T C n past t = answers S C n past s ∧
      R (past ++ answers S C n past s) (converse S C n past s).2 (converse T C n past t).2 := by
  induction n generalizing past s t with
  | zero => exact ⟨rfl, by simpa [answers, converse] using hr⟩
  | succ n ih =>
    cases hq : C past with
    | none =>
      rw [answers, answers, converse_stop hq, converse_stop hq]
      exact ⟨rfl, by simpa using hr⟩
    | some i =>
      cases h : S past s i with
      | none =>
        rw [answers, answers, converse_refuse hq h, converse_refuse hq (hstuck _ _ _ _ hr h)]
        exact ⟨rfl, by simpa using hr⟩
      | some r =>
        rw [converse_turn hq h] at hp
        obtain ⟨t', ht', hr'⟩ := hstep _ _ _ _ _ _ hr hq (hp _ (.head _)) h
        obtain ⟨hans, hend⟩ := ih hr' fun u hu => hp u (.tail _ hu)
        rw [answers, answers, converse_turn hq h, converse_turn hq ht']
        refine ⟨congrArg (r.1 :: ·) hans, ?_⟩
        rw [List.map_cons, List.append_cons]
        exact hend

end Turns

end AScript.Lib
