import AScript.Lib.Cursor

namespace AScript.Lib

def Accepts (p : Reader S E α) (P : α → List UInt8 → Prop) : Prop :=
  ∀ bs s a rest s', p (bs, s) = .ok (a, (rest, s')) → ∃ used, bs = used ++ rest ∧ P a used

namespace Accepts

variable {S E α β : Type} {p : Reader S E α} {f : α → Reader S E β} {P P' : α → List UInt8 → Prop}
  {Q : β → List UInt8 → Prop} {short : E}

theorem pure (h : P a []) : Accepts (Pure.pure a : Reader S E α) P := by
  intro bs s a' rest s' hr
  cases hr
  exact ⟨[], rfl, h⟩

theorem throw (e : E) : Accepts (MonadExcept.throw e : Reader S E α) P :=
  fun _ _ _ _ _ hr => nomatch hr

theorem bind (hp : Accepts p P)
    (hf : ∀ a used, P a used → Accepts (f a) fun b more => Q b (used ++ more)) :
    Accepts (p >>= f) Q := by
  intro bs s b rest s' hr
  change (p (bs, s) >>= fun r => f r.1 r.2) = _ at hr
  cases hp' : p (bs, s) with
  | error e =>
    rw [hp'] at hr
    cases hr
  | ok r =>
    obtain ⟨a, bs', s₁⟩ := r
    rw [hp'] at hr
    obtain ⟨used, rfl, ha⟩ := hp bs s a bs' s₁ hp'
    obtain ⟨more, rfl, hb⟩ := hf a used ha bs' s₁ b rest s' hr
    exact ⟨used ++ more, (List.append_assoc ..).symm, hb⟩

theorem mono (hp : Accepts p P) (h : ∀ a used, P a used → P' a used) : Accepts p P' := by
  intro bs s a rest s' hr
  obtain ⟨used, hbs, ha⟩ := hp bs s a rest s' hr
  exact ⟨used, hbs, h a used ha⟩

theorem map {g : α → β} (hp : Accepts p P) (h : ∀ a used, P a used → Q (g a) used) :
    Accepts (p >>= fun a => Pure.pure (g a)) Q :=
  hp.bind fun a used ha => pure (by rw [List.append_nil]; exact h a used ha)

theorem take : Accepts (Reader.take short n : Reader S E (List UInt8)) fun a used =>
    a = used ∧ used.length = n := by
  intro bs s a rest s' hr
  by_cases hn : n ≤ bs.length
  · rw [Reader.take, if_pos hn] at hr
    cases hr
    exact ⟨_, (List.take_append_drop n bs).symm, rfl, List.length_take_of_le hn⟩
  · rw [Reader.take, if_neg hn] at hr
    cases hr

theorem u8 : Accepts (Reader.u8 short : Reader S E UInt8) fun b used => used = [b] := by
  intro bs s b rest s' hr
  cases bs with
  | nil => cases hr
  | cons b' bs =>
    cases hr
    exact ⟨[b], rfl, rfl⟩

theorem word : Accepts (Reader.word short k : Reader S E Nat) fun n used =>
    used = le k n ∧ n < 256 ^ k := by
  refine take.map ?_
  rintro a _ ⟨rfl, rfl⟩
  exact ⟨(le_ofLe a).symm, ofLe_lt a⟩

theorem many {enc : α → List UInt8} {G : α → Prop}
    (hp : Accepts p fun a used => used = enc a ∧ G a) : ∀ n,
    Accepts (Reader.many p n) fun as used =>
      used = as.flatMap enc ∧ as.length = n ∧ ∀ a ∈ as, G a
  | 0 => pure ⟨rfl, rfl, nofun⟩
  | n + 1 => by
    refine hp.bind ?_
    rintro a _ ⟨rfl, ha⟩
    refine (many hp n).map ?_
    rintro as _ ⟨rfl, rfl, has⟩
    exact ⟨rfl, rfl, List.forall_mem_cons.mpr ⟨ha, has⟩⟩

end Accepts

end AScript.Lib
