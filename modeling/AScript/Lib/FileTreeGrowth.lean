import AScript.Lib.FileTree

namespace AScript.Lib.FileTree

variable {α : Type} {t t' t'' : FileTree α}

structure Grows (t t' : FileTree α) : Prop where
  keeps : ∀ p, t.node p ≠ none → t'.node p = t.node p
  new : ∀ p, t.node p = none → t'.node p = none ∨ t'.node p = some .dir

theorem Grows.refl (t : FileTree α) : t.Grows t := ⟨fun _ _ => rfl, fun _ h => .inl h⟩

theorem Grows.trans (h : t.Grows t') (h' : t'.Grows t'') : t.Grows t'' where
  keeps p hp := by
    have hkeep := h.keeps p hp
    rw [h'.keeps p (by rw [hkeep]; exact hp), hkeep]
  new p hp := by
    obtain hnone | hdir := h.new p hp
    · exact h'.new p hnone
    · exact .inr (by rw [h'.keeps p (by rw [hdir]; nofun), hdir])

theorem Grows.dir (h : t.Grows t') (hp : t.node p = some .dir) : t'.node p = some .dir := by
  rw [h.keeps p (by rw [hp]; nofun), hp]

theorem mkdir_grows [DecidableEq α] (h : t.mkdir limit path = .ok (q, t')) : t.Grows t' := by
  unfold mkdir change at h
  cases hr : t.resolve false limit [] path with
  | error e =>
    rw [hr] at h
    cases h
  | ok r =>
    rw [hr] at h
    simp only [bind, Except.bind] at h
    split at h
    next hput =>
      cases h
      obtain ⟨v, hv, hput⟩ := Option.bind_eq_some_iff.mp hput
      obtain ⟨-, hnode⟩ := put_eq_some hput
      split at hv
      next hnone =>
        cases hv
        refine ⟨fun p hp => ?_, fun p hp => ?_⟩
        · rw [hnode, if_neg]
          rintro rfl
          exact hp hnone
        · rw [hnode]
          split
          · exact .inr rfl
          · exact .inl hp
      next => cases hv
    next => cases h

theorem node_append_none (h : t.node p = none) (rest : List α) : t.node (p ++ rest) = none := by
  by_contra hne
  by_cases hrest : rest = []
  · rw [hrest, List.append_nil] at hne
    exact hne h
  · cases h.symm.trans (t.ancestors rest p hne hrest)

theorem Grows.clear (h : t.Grows t') (hd : t.node d = some .dir) (hn : t.node (d ++ [n]) = none)
    (names : List α) : t'.Clear (d ++ n :: names) := by
  rintro q hq - ⟨absolute, target, hlink⟩
  have habove : q <+: d → False := fun hqd => by
    obtain ⟨r, rfl⟩ := hqd
    have hq : t.node q = some .dir := by
      by_cases hr : r = []
      · rwa [hr, List.append_nil] at hd
      · exact t.ancestors r q (by rw [hd]; nofun) hr
    cases (h.dir hq).symm.trans hlink
  obtain hqd | ⟨r, rfl⟩ := List.prefix_or_prefix_of_prefix hq (List.prefix_append d (n :: names))
  · exact habove hqd
  cases r with
  | nil => exact habove ⟨[], by simp⟩
  | cons m r =>
    obtain ⟨rfl, -⟩ := List.cons_prefix_cons.mp ((List.prefix_append_right_inj d).mp hq)
    have hnone : t.node (d ++ m :: r) = none := by
      have := node_append_none hn r
      rwa [List.append_assoc] at this
    obtain hnone' | hdir := h.new _ hnone
    · cases hnone'.symm.trans hlink
    · cases hdir.symm.trans hlink

theorem Grows.not_link (h : t.Grows t') (hd : t.node d = some .dir)
    (hn : t.node (d ++ [n]) = none) (names : List α) : ¬ t'.IsLink (d ++ n :: names) :=
  h.clear hd hn names _ (List.prefix_refl _) (by simp)

theorem Grows.resolve (h : t.Grows t') : ∀ (limit : Nat) (cur : List α) (segs : List (Seg α)),
    t.resolve true limit cur segs = .ok q → t.node q ≠ none →
    t'.resolve true limit cur segs = .ok q
  | _ + 1, _, [], hq, _ => hq
  | limit + 1, cur, .here :: rest, hq, hne => h.resolve limit cur rest hq hne
  | limit + 1, cur, .up :: rest, hq, hne => h.resolve limit cur.dropLast rest hq hne
  | limit + 1, cur, .name n :: rest, hq, hne => by
    rw [FileTree.resolve] at hq ⊢
    cases hnode : t.node (cur ++ [n]) with
    | none =>
      rw [hnode] at hq
      dsimp only at hq
      split at hq
      · cases hq
        exact absurd hnode hne
      · cases hq
    | some v =>
      rw [h.keeps _ (fun h => by rw [hnode] at h; cases h), hnode]
      rw [hnode] at hq
      cases v with
      | dir => exact h.resolve limit _ rest hq hne
      | file data mode => exact hq
      | link absolute target =>
        dsimp only at hq ⊢
        rw [if_neg (by simp)] at hq ⊢
        exact h.resolve limit _ _ hq hne

theorem Grows.resolve_append (h : t.Grows t') :
    ∀ (limit : Nat) (cur : List α) (segs : List (Seg α)) (limit' : Nat),
      t.resolve true limit cur segs = .ok d → t.node d = some .dir →
      t'.resolve true limit' cur (segs ++ more) = .ok q →
      ∃ limit'', t'.resolve true limit'' d more = .ok q
  | _ + 1, _, [], limit', hd, _, hq => by
    cases hd
    exact ⟨limit', hq⟩
  | limit + 1, cur, .here :: rest, limit' + 1, hd, hdir, hq =>
    h.resolve_append limit cur rest limit' hd hdir hq
  | limit + 1, cur, .up :: rest, limit' + 1, hd, hdir, hq =>
    h.resolve_append limit cur.dropLast rest limit' hd hdir hq
  | limit + 1, cur, .name n :: rest, limit' + 1, hd, hdir, hq => by
    rw [FileTree.resolve] at hd
    rw [List.cons_append, FileTree.resolve] at hq
    cases hnode : t.node (cur ++ [n]) with
    | none =>
      rw [hnode] at hd
      dsimp only at hd
      split at hd
      · cases hd
        cases hnode.symm.trans hdir
      · cases hd
    | some v =>
      rw [h.keeps _ (fun h => by rw [hnode] at h; cases h), hnode] at hq
      rw [hnode] at hd
      cases v with
      | dir => exact h.resolve_append limit _ rest limit' hd hdir hq
      | file data mode =>
        dsimp only at hd
        split at hd
        · cases hd
          cases hnode.symm.trans hdir
        · cases hd
      | link absolute target =>
        dsimp only at hd hq
        rw [if_neg (by simp)] at hd hq
        rw [← List.append_assoc] at hq
        exact h.resolve_append limit _ _ limit' hd hdir hq

theorem Grows.resolve_missing (h : t.Grows t') (hd : t.resolve true limit cur segs = .ok d)
    (hdir : t.node d = some .dir) (hn : t.node (d ++ [n]) = none)
    (hq : t'.resolve true limit' cur (segs ++ (n :: names).map .name) = .ok q) :
    q = d ++ n :: names := by
  obtain ⟨limit'', hq⟩ := h.resolve_append limit cur segs limit' hd hdir hq
  have hclear := h.clear hdir hn names
  exact resolve_names limit'' d (n :: names) (hclear.of_prefix (List.dropLast_prefix _))
    (fun _ => h.not_link hdir hn names) hq

end AScript.Lib.FileTree
