import Mathlib.Tactic.Common

namespace AScript.Lib

/-- The result of a computation, if it has one. -/
def Succeeds (r : Except ε α) : Prop := ∃ a, r = .ok a

@[simp] theorem succeeds_ok : Succeeds (.ok a : Except ε α) := ⟨a, rfl⟩

@[simp] theorem not_succeeds_error : ¬ Succeeds (.error e : Except ε α) := nofun

theorem succeeds_bind {r : Except ε α} {f : α → Except ε β} :
    Succeeds (r >>= f) ↔ ∃ a, r = .ok a ∧ Succeeds (f a) := by
  cases r with
  | ok a => exact ⟨fun h => ⟨a, rfl, h⟩, fun ⟨_, ha, h⟩ => Except.ok.inj ha ▸ h⟩
  | error e => exact ⟨fun h => absurd h not_succeeds_error, fun ⟨_, ha, _⟩ => nomatch ha⟩

theorem succeeds_mapM {f : α → Except ε β} {l : List α} :
    Succeeds (l.mapM f) ↔ ∀ a ∈ l, Succeeds (f a) := by
  induction l with
  | nil => simp [pure, Except.pure]
  | cons a l ih =>
    rw [List.mapM_cons, succeeds_bind, List.forall_mem_cons, ← ih]
    constructor
    · rintro ⟨b, hb, h⟩
      obtain ⟨bs, hbs, -⟩ := succeeds_bind.mp h
      exact ⟨⟨b, hb⟩, bs, hbs⟩
    · rintro ⟨⟨b, hb⟩, bs, hbs⟩
      exact ⟨b, hb, succeeds_bind.mpr ⟨bs, hbs, succeeds_ok⟩⟩

theorem succeeds_seq {r : Except ε α} {f : α → Except ε β} (hf : ∀ a, Succeeds (f a) ↔ Q) :
    Succeeds (r >>= f) ↔ Succeeds r ∧ Q := by
  rw [succeeds_bind]
  exact ⟨fun ⟨a, ha, h⟩ => ⟨⟨a, ha⟩, (hf a).mp h⟩, fun ⟨⟨a, ha⟩, h⟩ => ⟨a, ha, (hf a).mpr h⟩⟩

theorem ok_bind {r : Except ε α} {f : α → Except ε β} (h : r >>= f = .ok b) :
    ∃ a, r = .ok a ∧ f a = .ok b := by
  cases r with
  | ok a => exact ⟨a, rfl, h⟩
  | error e => cases h

theorem map_ok {r : Except ε α} {f : α → β} (h : r.map f = .ok b) : ∃ a, r = .ok a ∧ f a = b := by
  cases r with
  | ok a => exact ⟨a, rfl, Except.ok.inj h⟩
  | error e => cases h

theorem mapM_congr {f g : α → Except ε β} {l : List α} (h : ∀ a ∈ l, f a = g a) :
    l.mapM f = l.mapM g := by
  induction l with
  | nil => rfl
  | cons a l ih =>
    obtain ⟨ha, hl⟩ := List.forall_mem_cons.mp h
    rw [List.mapM_cons, List.mapM_cons, ha, ih hl]

theorem mapM_length {f : α → Except ε β} {l : List α} (h : l.mapM f = .ok bs) :
    bs.length = l.length := by
  induction l generalizing bs with
  | nil =>
    cases h
    rfl
  | cons a l ih =>
    rw [List.mapM_cons] at h
    obtain ⟨b, -, h⟩ := ok_bind h
    obtain ⟨bs', hbs, h⟩ := ok_bind h
    rw [← Except.ok.inj h, List.length_cons, List.length_cons, ih hbs]

theorem mapM_mem {f : α → Except ε β} {l : List α} (h : l.mapM f = .ok bs) (hb : b ∈ bs) :
    ∃ a ∈ l, f a = .ok b := by
  induction l generalizing bs with
  | nil =>
    cases h
    cases hb
  | cons a l ih =>
    rw [List.mapM_cons] at h
    obtain ⟨b', hb', h⟩ := ok_bind h
    obtain ⟨bs', hbs, h⟩ := ok_bind h
    obtain rfl := Except.ok.inj h
    rcases List.mem_cons.mp hb with rfl | hb
    · exact ⟨a, List.mem_cons_self, hb'⟩
    · obtain ⟨a', ha', h⟩ := ih hbs hb
      exact ⟨a', List.mem_cons_of_mem _ ha', h⟩

theorem mapM_mem_iff {f : α → Except ε β} {l : List α} {bs : List β} (h : l.mapM f = .ok bs) :
    b ∈ bs ↔ ∃ a ∈ l, f a = .ok b := by
  refine ⟨mapM_mem h, ?_⟩
  rintro ⟨a, ha, hb⟩
  induction l generalizing bs with
  | nil => cases ha
  | cons a' l ih =>
    rw [List.mapM_cons] at h
    obtain ⟨b', hb', h⟩ := ok_bind h
    obtain ⟨bs', hbs, h⟩ := ok_bind h
    obtain rfl := Except.ok.inj h
    rcases List.mem_cons.mp ha with rfl | ha
    · rw [hb'] at hb
      exact Except.ok.inj hb ▸ List.mem_cons_self
    · exact List.mem_cons_of_mem _ (ih hbs ha)

theorem mapM_error {f : α → Except ε β} {l : List α} (h : ∀ a ∈ l, Succeeds (f a) ∨ f a = .error e)
    (hn : ¬ ∀ a ∈ l, Succeeds (f a)) : l.mapM f = .error e := by
  induction l with
  | nil => exact absurd nofun hn
  | cons a l ih =>
    rw [List.forall_mem_cons] at h hn
    rw [List.mapM_cons]
    rcases h.1 with ⟨b, hb⟩ | he
    · rw [hb]
      have hrest := ih h.2 fun hl => hn ⟨⟨b, hb⟩, hl⟩
      change (l.mapM f >>= fun bs => pure (b :: bs)) = _
      rw [hrest]
      rfl
    · rw [he]
      rfl

theorem forall₂_of_mapM {f : α → Except ε β} {l : List α} (h : l.mapM f = .ok bs) :
    List.Forall₂ (fun a b => f a = .ok b) l bs := by
  induction l generalizing bs with
  | nil =>
    cases h
    exact .nil
  | cons a l ih =>
    rw [List.mapM_cons] at h
    obtain ⟨b, hb, h⟩ := ok_bind h
    obtain ⟨bs', hbs, h⟩ := ok_bind h
    obtain rfl := Except.ok.inj h
    exact .cons hb (ih hbs)

theorem map_eq_map_iff {R : α → β → Prop} {l : List α} {bs : List β} {f : α → γ} {g : β → γ}
    {P : α → Prop} (h : List.Forall₂ R l bs) (hp : ∀ a ∈ l, ∀ b, R a b → (g b = f a ↔ P a)) :
    bs.map g = l.map f ↔ ∀ a ∈ l, P a := by
  induction h with
  | nil => simp
  | cons hab _ ih =>
    rw [List.map_cons, List.map_cons, List.cons.injEq, List.forall_mem_cons,
      hp _ List.mem_cons_self _ hab, ih fun a ha => hp a (List.mem_cons_of_mem _ ha)]

end AScript.Lib
