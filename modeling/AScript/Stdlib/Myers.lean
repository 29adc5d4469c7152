import AScript.Stdlib.Diff

/-! The edit script is a shortest one (`stdlib/diff.rs`). -/

namespace AScript.Stdlib.Diff

open AScript.Lib AScript.Lib.Edit

theorem getV_setV (h : setV v i x = some v') : getV v' j = if j = i then some x else getV v j := by
  unfold setV at h
  split at h
  next hi =>
    cases h
    unfold getV
    by_cases hj : j < 0
    · rw [if_pos hj, if_neg (by omega), if_pos hj]
    · rw [if_neg hj, if_neg hj, List.getElem?_set]
      by_cases hij : j = i
      · subst hij
        rw [if_pos rfl, if_pos rfl, if_pos (by omega)]
      · rw [if_neg (by omega), if_neg hij]
  · cases h

theorem length_setV (h : setV v i x = some v') : v'.length = v.length := by
  unfold setV at h
  split at h
  · cases h
    exact List.length_set
  · cases h

theorem setV_isSome (h : 0 ≤ i) (h' : i < v.length) : ∃ v', setV v i x = some v' := by
  rw [setV, if_pos ⟨h, h'⟩]
  exact ⟨_, rfl⟩

section

variable {a b : List Nat}

theorem below_iff : below x n = true ↔ 0 ≤ x ∧ x < n := by
  simp [below]

theorem snake_step (h : Match a b x y) : snake a b x y = snake a b (x + 1) (y + 1) := by
  have hb := h.bounds
  obtain ⟨hx, hy, c, hac, hbc⟩ := h
  have hxb : below x a.length = true := below_iff.mpr ⟨hx, hb.1⟩
  have hyb : below y b.length = true := below_iff.mpr ⟨hy, hb.2⟩
  rw [snake, hxb, hyb, hac, hbc]
  simp

theorem snake_stop (hx : 0 ≤ x) (hy : 0 ≤ y) (h : ¬ Match a b x y) : snake a b x y = (x, y) := by
  rw [snake, if_neg]
  simp only [Bool.and_eq_true, below_iff, beq_iff_eq]
  rintro ⟨⟨⟨-, hxa⟩, -, hyb⟩, heq⟩
  have hxn : x.toNat < a.length := by omega
  exact h ⟨hx, hy, a[x.toNat], List.getElem?_eq_getElem hxn, by
    rw [← heq, List.getElem?_eq_getElem hxn]⟩

structure Follows (a b : List Nat) (x y : Int) (p : Int × Int) : Prop where
  diagonal : p.1 - p.2 = x - y
  forward : x ≤ p.1
  matches_ : ∀ i, x ≤ i → i < p.1 → Match a b i (i - (x - y))
  stops : ¬ Match a b p.1 p.2

theorem snake_follows (hx : 0 ≤ x) (hy : 0 ≤ y) : Follows a b x y (snake a b x y) := by
  induction hn : (a.length - x).toNat generalizing x y with
  | zero =>
    have hstop : ¬ Match a b x y := fun h => by
      have := h.bounds
      omega
    rw [snake_stop hx hy hstop]
    exact ⟨rfl, le_refl _, fun i h h' => absurd h' (not_lt.mpr h), hstop⟩
  | succ n ih =>
    by_cases h : Match a b x y
    · have hb := h.bounds
      obtain ⟨hd, hf, hm, hs⟩ := ih (x := x + 1) (y := y + 1) (by omega) (by omega) (by omega)
      rw [snake_step h]
      refine ⟨by omega, by omega, fun i hi hi' => ?_, hs⟩
      by_cases hix : i = x
      · subst hix
        rwa [show i - (i - y) = y by omega]
      · rw [show i - (x - y) = i - (x + 1 - (y + 1)) by omega]
        exact hm i (by omega) hi'
    · rw [snake_stop hx hy h]
      exact ⟨rfl, le_refl _, fun i h h' => absurd h' (not_lt.mpr h), h⟩

theorem Follows.reach (h : Follows a b x y p) (hr : Reach a b d x y) : Reach a b d p.1 p.2 := by
  have hwalk : ∀ n : Nat, x + n ≤ p.1 → Reach a b d (x + n) (y + n) := by
    intro n
    induction n with
    | zero => simpa using fun _ => hr
    | succ n ih =>
      intro hn
      have hm := h.matches_ (x + n) (by omega) (by omega)
      rw [show x + n - (x - y) = y + n by omega] at hm
      have hr := Reach.equal (ih (by omega)) hm
      rwa [show x + n + 1 = x + (n + 1 : Nat) by omega, show y + n + 1 = y + (n + 1 : Nat) by omega]
        at hr
  have hf := h.forward
  have hd := h.diagonal
  have hr := hwalk (p.1 - x).toNat (by omega)
  rwa [show x + (p.1 - x).toNat = p.1 by omega, show y + (p.1 - x).toNat = p.2 by omega] at hr

def offset (a b : List Nat) : Int := (a.length + b.length : Nat)

/-- Diagonal `k` is one of round `d`. -/
def InRound (d : Nat) (k : Int) : Prop := -d ≤ k ∧ k ≤ d ∧ (k - d) % 2 = 0

/-- The values before round `d`: the furthest points of the round before. -/
structure Snapshot (a b : List Nat) (v : List Int) (d : Nat) : Prop where
  length : v.length = 2 * (a.length + b.length) + 1
  zero : d = 0 → getV v (1 + offset a b) = some 0
  far : ∀ e, e + 1 = d → ∀ k, InRound e k →
    ∃ x, getV v (k + offset a b) = some x ∧ Furthest a b e k x

/-- How a diagonal is entered: from `prevK`, at `s`. -/
structure Move (a b : List Nat) (v : List Int) (d : Nat) (k : Int) (down : Bool) (px : Int) :
    Prop where
  down_eq : goesDown (offset a b) v d k = some down
  prev_eq : getV v ((if down then k + 1 else k - 1) + offset a b) = some px
  first : d = 0 → down = true ∧ px = 0 ∧ k = 0
  prev : ∀ e, e + 1 = d → InRound e (if down then k + 1 else k - 1) ∧
    Furthest a b e (if down then k + 1 else k - 1) px
  reach : Reach a b d (if down then px else px + 1) ((if down then px else px + 1) - k)
  fromLeft : ∀ e x', e + 1 = d → Reach a b e x' (x' - (k - 1)) →
    x' + 1 ≤ if down then px else px + 1
  fromAbove : ∀ e x', e + 1 = d → Reach a b e x' (x' - (k + 1)) → x' ≤ if down then px else px + 1
  right : down = false → ∀ e x', e + 1 = d → Reach a b e x' (x' - (k + 1)) → x' ≤ px

theorem Snapshot.move (h : Snapshot a b v d) (hk : InRound d k) :
    ∃ down px, Move a b v d k down px := by
  obtain ⟨hlo, hhi, hpar⟩ := hk
  cases d with
  | zero =>
    obtain rfl : k = 0 := by omega
    refine ⟨true, 0, ?_, ?_, fun _ => ⟨rfl, rfl, rfl⟩, fun e he => by omega, .origin,
      fun e x' he => by omega, fun e x' he => by omega, nofun⟩
    · rw [goesDown, if_pos (by simp)]
    · simpa using h.zero rfl
  | succ e =>
    have hright : k ≠ -(e + 1 : Nat) → ∃ x, getV v (k - 1 + offset a b) = some x ∧
        Furthest a b e (k - 1) x := fun hne => h.far e rfl (k - 1) ⟨by omega, by omega, by omega⟩
    have hdown : k ≠ (e + 1 : Nat) → ∃ x, getV v (k + 1 + offset a b) = some x ∧
        Furthest a b e (k + 1) x := fun hne => h.far e rfl (k + 1) ⟨by omega, by omega, by omega⟩
    have hreachD : ∀ {px}, Furthest a b e (k + 1) px → Reach a b (e + 1) px (px - k) := by
      intro px hf
      have := Reach.insert hf.reach
      rwa [show px - (k + 1) + 1 = px - k by omega] at this
    have hreachR : ∀ {px}, Furthest a b e (k - 1) px → Reach a b (e + 1) (px + 1) (px + 1 - k) := by
      intro px hf
      have := Reach.delete hf.reach
      rwa [show px - (k - 1) = px + 1 - k by omega] at this
    by_cases hmin : k = -(e + 1 : Nat)
    · obtain ⟨px, hpx, hf⟩ := hdown (by omega)
      refine ⟨true, px, ?_, hpx, nofun, ?_, hreachD hf, ?_, ?_, nofun⟩
      · rw [goesDown, if_pos hmin]
      · rintro e' he'
        obtain rfl : e' = e := by omega
        exact ⟨⟨by simp; omega, by simp; omega, by simp; omega⟩, hf⟩
      · rintro e' x' he' hr
        have := hr.bounds
        omega
      · rintro e' x' he' hr
        obtain rfl : e' = e := by omega
        exact hf.most x' hr
    by_cases hmax : k = (e + 1 : Nat)
    · obtain ⟨px, hpx, hf⟩ := hright hmin
      have habove : ∀ e' x', e' + 1 = e + 1 → ¬ Reach a b e' x' (x' - (k + 1)) := by
        rintro e' x' he' hr
        have := hr.bounds
        omega
      refine ⟨false, px, ?_, hpx, nofun, ?_, hreachR hf, ?_, fun e' x' he' hr =>
        absurd hr (habove e' x' he'), fun _ e' x' he' hr => absurd hr (habove e' x' he')⟩
      · rw [goesDown, if_neg hmin, if_pos hmax]
      · rintro e' he'
        obtain rfl : e' = e := by omega
        exact ⟨⟨by simp; omega, by simp; omega, by simp; omega⟩, hf⟩
      · rintro e' x' he' hr
        obtain rfl : e' = e := by omega
        have := hf.most x' hr
        simpa using this
    obtain ⟨pr, hpr, hfr⟩ := hright hmin
    obtain ⟨pd, hpd, hfd⟩ := hdown hmax
    have hgoes : goesDown (offset a b) v (e + 1 : Nat) k = some (decide (pr < pd)) := by
      rw [goesDown, if_neg hmin, if_neg hmax, hpr, hpd]
      rfl
    by_cases hlt : pr < pd
    · refine ⟨true, pd, by rw [hgoes, decide_eq_true hlt], hpd, nofun, ?_, hreachD hfd, ?_, ?_,
        nofun⟩
      · rintro e' he'
        obtain rfl : e' = e := by omega
        exact ⟨⟨by simp; omega, by simp; omega, by simp; omega⟩, hfd⟩
      · rintro e' x' he' hr
        obtain rfl : e' = e := by omega
        have := hfr.most x' hr
        simp only [if_true]
        omega
      · rintro e' x' he' hr
        obtain rfl : e' = e := by omega
        exact hfd.most x' hr
    · have habove : ∀ e' x', e' + 1 = e + 1 → Reach a b e' x' (x' - (k + 1)) → x' ≤ pr := by
        rintro e' x' he' hr
        obtain rfl : e' = e := by omega
        exact (hfd.most x' hr).trans (not_lt.mp hlt)
      refine ⟨false, pr, by rw [hgoes, decide_eq_false hlt], hpr, nofun, ?_, hreachR hfr, ?_,
        fun e' x' he' hr => (habove e' x' he' hr).trans (by simp), fun _ => habove⟩
      · rintro e' he'
        obtain rfl : e' = e := by omega
        exact ⟨⟨by simp; omega, by simp; omega, by simp; omega⟩, hfr⟩
      · rintro e' x' he' hr
        obtain rfl : e' = e := by omega
        have := hfr.most x' hr
        simpa using this

def entry (down : Bool) (px : Int) : Int := if down then px else px + 1

theorem Move.start_eq (h : Move a b v d k down px) :
    start (offset a b) v d k = some (entry down px) := by
  have hprev := h.prev_eq
  rw [start, h.down_eq]
  cases down with
  | true => simpa [entry] using hprev
  | false =>
    simp only [Bool.false_eq_true, if_false] at hprev
    simp [entry, hprev]

theorem Move.furthest (h : Move a b v d k down px) :
    Follows a b (entry down px) (entry down px - k)
        (snake a b (entry down px) (entry down px - k)) ∧
      Furthest a b d k (snake a b (entry down px) (entry down px - k)).1 := by
  have hr : Reach a b d (entry down px) (entry down px - k) := h.reach
  obtain ⟨hx, hy, -⟩ := hr.bounds
  have hf := snake_follows (a := a) (b := b) hx hy
  generalize snake a b (entry down px) (entry down px - k) = p at hf ⊢
  have hp : p.2 = p.1 - k := by
    have := hf.diagonal
    omega
  have hreach := hf.reach hr
  have hstop := hf.stops
  rw [hp] at hreach hstop
  refine ⟨hf, furthest_of_stop hreach hstop (fun e x' he hx' => ?_) fun e x' he hx' => ?_⟩
  · exact (h.fromLeft e x' he hx').trans hf.forward
  · exact (h.fromAbove e x' he hx').trans hf.forward

theorem Snapshot.set (h : Snapshot a b v d) (hk : InRound d k)
    (hset : setV v (k + offset a b) x = some v') : Snapshot a b v' d where
  length := (length_setV hset).trans h.length
  zero h0 := by
    subst h0
    obtain ⟨hlo, hhi, -⟩ := hk
    rw [getV_setV hset, if_neg (by omega), h.zero rfl]
  far e he k' hk' := by
    subst he
    obtain ⟨-, -, hpar⟩ := hk
    obtain ⟨-, -, hpar'⟩ := id hk'
    rw [getV_setV hset, if_neg (by omega)]
    exact h.far e rfl k' hk'

/-- Diagonal `k` of round `d` is done, and does not end at the end. -/
def Passed (a b : List Nat) (v : List Int) (d : Nat) (k : Int) : Prop :=
  ∃ x, getV v (k + offset a b) = some x ∧ Furthest a b d k x ∧
    ¬ ((a.length : Int) ≤ x ∧ (b.length : Int) ≤ x - k)

theorem round_spec (hd : d ≤ a.length + b.length) {ks : List Int} (past : List Int)
    (hs : Snapshot a b v d) (hks : ∀ k ∈ ks, InRound d k) (hpast : ∀ k ∈ past, Passed a b v d k)
    (hnew : (past ++ ks).Nodup) :
    ∃ found v', round a b (offset a b) d ks v = some (found, v') ∧
      (found = true → ∃ k x, InRound d k ∧ Furthest a b d k x ∧ (a.length : Int) ≤ x ∧
        (b.length : Int) ≤ x - k) ∧
      (found = false → v'.length = v.length ∧ ∀ k ∈ past ++ ks, Passed a b v' d k) := by
  induction ks generalizing v past with
  | nil =>
    refine ⟨false, v, rfl, nofun, fun _ => ⟨rfl, fun k hk => hpast k (by simpa using hk)⟩⟩
  | cons k ks ih =>
    rw [List.forall_mem_cons] at hks
    obtain ⟨hk, hks⟩ := hks
    obtain ⟨down, px, hmove⟩ := hs.move hk
    obtain ⟨hfollow, hfar⟩ := hmove.furthest
    have hdiag := hfollow.diagonal
    generalize hp : snake a b (entry down px) (entry down px - k) = p at hfollow hfar hdiag
    obtain ⟨x, y⟩ := p
    dsimp only at hfar hdiag
    obtain rfl : y = x - k := by omega
    obtain ⟨hx, hy, -⟩ := hfar.reach.bounds
    obtain ⟨hlo, hhi, -⟩ := id hk
    obtain ⟨v', hset⟩ := setV_isSome (v := v) (i := k + offset a b) (x := x)
      (by unfold offset; omega) (by rw [hs.length]; unfold offset; omega)
    have hround : round a b (offset a b) d (k :: ks) v =
        if !below x a.length && !below (x - k) b.length then some (true, v')
        else round a b (offset a b) d ks v' := by
      rw [round, hmove.start_eq]
      change (setV v (k + offset a b) (snake a b (entry down px) (entry down px - k)).1 >>= _) = _
      rw [hp]
      dsimp only
      rw [hset]
      rfl
    have hend : (!below x a.length && !below (x - k) b.length) = true ↔
        (a.length : Int) ≤ x ∧ (b.length : Int) ≤ x - k := by
      simp only [Bool.and_eq_true, Bool.not_eq_true', Bool.eq_false_iff, ne_eq, below_iff]
      omega
    rw [hround]
    by_cases hfound : (a.length : Int) ≤ x ∧ (b.length : Int) ≤ x - k
    · rw [if_pos (hend.mpr hfound)]
      exact ⟨true, v', rfl, fun _ => ⟨k, x, hk, hfar, hfound⟩, nofun⟩
    · rw [if_neg (mt hend.mp hfound)]
      have hpast' : ∀ k' ∈ past ++ [k], Passed a b v' d k' := by
        intro k' hk'
        rcases List.mem_append.mp hk' with hold | hk'
        · obtain ⟨x', hx', hpass⟩ := hpast k' hold
          have hne : k' ≠ k := fun hkk => by
            subst hkk
            exact (List.nodup_append.mp hnew).2.2 k' hold k' List.mem_cons_self rfl
          exact ⟨x', by rw [getV_setV hset, if_neg (by omega), hx'], hpass⟩
        · obtain rfl := List.mem_singleton.mp hk'
          exact ⟨x, by rw [getV_setV hset, if_pos rfl], hfar, hfound⟩
      obtain ⟨found, v'', hres, hyes, hno⟩ := ih _ (hs.set hk hset) hks hpast'
        (by simpa using hnew)
      refine ⟨found, v'', hres, hyes, fun hf => ?_⟩
      obtain ⟨hlen, hall⟩ := hno hf
      exact ⟨hlen.trans (length_setV hset), fun k' hk' => hall k' (by simpa using hk')⟩

theorem mem_diagonals {d : Nat} {k : Int} : k ∈ diagonals d ↔ InRound d k := by
  simp only [diagonals, List.mem_map, List.mem_range, InRound]
  constructor
  · rintro ⟨i, hi, rfl⟩
    omega
  · rintro ⟨hlo, hhi, hpar⟩
    exact ⟨((k + d) / 2).toNat, by omega, by omega⟩

theorem nodup_diagonals (d : Nat) : (diagonals d).Nodup :=
  List.Pairwise.map _ (fun _ _ hij h => hij (by omega)) List.nodup_range

theorem Reach.inRound {d : Nat} (h : Reach a b d x y) : InRound d (x - y) := by
  obtain ⟨-, -, h₁, h₂, h₃⟩ := h.bounds
  exact ⟨by omega, h₁, h₃⟩

theorem reach_end (a b : List Nat) : Reach a b (a.length + b.length) a.length b.length := by
  obtain ⟨s, hs, hc⟩ := exists_replays (List.nil_sublist a) (List.nil_sublist b)
  have h := hs.reach
  rwa [show cost s = a.length + b.length by simpa using hc] at h

structure Found (a b : List Nat) (d : Nat) (traces : List (List Int)) : Prop where
  snapshots : ∀ e ≤ d, ∃ v, traces[e]? = some v ∧ Snapshot a b v e
  furthest : Furthest a b d (a.length - b.length) a.length
  first : ∀ e < d, ¬ Reach a b e a.length b.length

theorem found_at (hr : ∀ e < d, ¬ Reach a b e a.length b.length) (hf : Furthest a b d k x)
    (hx : (a.length : Int) ≤ x) (hy : (b.length : Int) ≤ x - k) :
    Furthest a b d (a.length - b.length) a.length := by
  obtain ⟨d', hr', hd⟩ := hf.reach.clip
  rw [min_eq_right hx, min_eq_right hy] at hr' hd
  have hge : d ≤ d' := by
    by_contra hlt
    exact hr d' (by omega) hr'
  obtain rfl : x = a.length := by omega
  obtain rfl : k = a.length - b.length := by omega
  exact hf

theorem search_spec {left d : Nat} (traces : List (List Int))
    (hleft : left + d = a.length + b.length + 1) (hs : Snapshot a b v d)
    (hlen : traces.length = d) (htr : ∀ e < d, ∃ v, traces[e]? = some v ∧ Snapshot a b v e)
    (hfirst : ∀ e < d, ¬ Reach a b e a.length b.length) :
    ∃ D traces', search a b (offset a b) left d v traces = some (some D, traces') ∧
      Found a b D traces' := by
  induction left generalizing d v traces with
  | zero => exact absurd (reach_end a b) (hfirst _ (by omega))
  | succ left ih =>
    have htr' : ∀ e ≤ d, ∃ w, (traces ++ [v])[e]? = some w ∧ Snapshot a b w e := by
      intro e he
      by_cases hed : e < d
      · obtain ⟨w, hw, hsw⟩ := htr e hed
        exact ⟨w, by rw [List.getElem?_append_left (by omega), hw], hsw⟩
      · obtain rfl : e = d := by omega
        exact ⟨v, by rw [← hlen]; simp, hs⟩
    obtain ⟨found, v', hround, hyes, hno⟩ := round_spec (by omega) [] hs
      (fun k hk => mem_diagonals.mp hk) nofun (nodup_diagonals d)
    rw [search, hround]
    cases found with
    | true =>
      obtain ⟨k, x, hk, hf, hx, hy⟩ := hyes rfl
      exact ⟨d, traces ++ [v], rfl, htr', found_at hfirst hf hx hy, hfirst⟩
    | false =>
      obtain ⟨hlen', hpassed⟩ := hno rfl
      have hs' : Snapshot a b v' (d + 1) := by
        refine ⟨hlen'.trans hs.length, nofun, fun e he k hk => ?_⟩
        obtain rfl : e = d := by omega
        obtain ⟨x, hx, hf, -⟩ := hpassed k (mem_diagonals.mpr hk)
        exact ⟨x, hx, hf⟩
      refine ih _ (by omega) hs' (by simp [hlen]) (fun e he => htr' e (by omega)) fun e he hr => ?_
      by_cases hed : e < d
      · exact hfirst e hed hr
      · obtain rfl : e = d := by omega
        obtain ⟨x, -, hf, hnot⟩ := hpassed _ (mem_diagonals.mpr (Reach.inRound hr))
        have hmost := hf.most a.length (by rwa [show (a.length : Int) - (a.length - b.length) =
          b.length by omega])
        exact hnot ⟨hmost, by omega⟩

theorem backSnake_spec {k s : Int} (px py x : Int) (script : List Edit) (hs : 0 ≤ s)
    (hsk : 0 ≤ s - k) (hx : s ≤ x)
    (hgo : ∀ i, (px < i ∧ py < i - k) ↔ s < i) (hm : ∀ i, s ≤ i → i < x → Match a b i (i - k))
    (hr : Replays script (a.drop x.toNat) (b.drop (x - k).toNat)) :
    Replays (backSnake px py x (x - k) script) (a.drop s.toNat) (b.drop (s - k).toNat) ∧
      cost (backSnake px py x (x - k) script) = cost script ∧
      ∀ d p, Traced a b d s (s - k) p → ∃ q, Traced a b d x (x - k) q ∧
        p ++ backSnake px py x (x - k) script = q ++ script := by
  induction hn : (x - s).toNat generalizing x script with
  | zero =>
    obtain rfl : x = s := by omega
    rw [backSnake, if_neg (mt (hgo x).mp (lt_irrefl x))]
    exact ⟨hr, rfl, fun d p hp => ⟨p, hp, rfl⟩⟩
  | succ n ih =>
    have hmatch := hm (x - 1) (by omega) (by omega)
    obtain ⟨-, -, c, hac, hbc⟩ := id hmatch
    obtain ⟨hna, hac⟩ := List.getElem?_eq_some_iff.mp hac
    obtain ⟨hnb, hbc⟩ := List.getElem?_eq_some_iff.mp hbc
    have ha : a.drop (x - 1).toNat = c :: a.drop x.toNat := by
      rw [List.drop_eq_getElem_cons hna, hac, show (x - 1).toNat + 1 = x.toNat by omega]
    have hb : b.drop (x - 1 - k).toNat = c :: b.drop (x - k).toNat := by
      rw [List.drop_eq_getElem_cons hnb, hbc, show (x - 1 - k).toNat + 1 = (x - k).toNat by omega]
    rw [backSnake, if_pos ((hgo x).mpr (by omega)), show x - k - 1 = x - 1 - k by omega]
    obtain ⟨hrep, hcost, htraced⟩ := ih (x - 1) (.equal :: script) (by omega)
      (fun i hi hi' => hm i hi (by omega)) (by rw [ha, hb]; exact .equal hr) (by omega)
    refine ⟨hrep, hcost.trans cost_equal, fun d p hp => ?_⟩
    obtain ⟨q, hq, heq⟩ := htraced d p hp
    have hstep := hq.equal hmatch
    rw [show x - 1 + 1 = x by omega, show x - 1 - k + 1 = x - k by omega] at hstep
    exact ⟨q ++ [.equal], hstep, by rw [heq, List.append_assoc]; rfl⟩

def prevK (k : Int) (down : Bool) : Int := if down then k + 1 else k - 1

def entered (d : Nat) (down : Bool) (script : List Edit) : List Edit :=
  if 0 < d then (if down then .insert else .delete) :: script else script

theorem back_step {traces : List (List Int)} {x y : Int} (h : traces[d]? = some v)
    (hm : Move a b v d (x - y) down px) : back (offset a b) traces (d + 1) x y script =
      back (offset a b) traces d px (px - prevK (x - y) down)
        (entered d down (backSnake px (px - prevK (x - y) down) x y script)) := by
  have hprev := hm.prev_eq
  rw [back, h]
  change (goesDown (offset a b) v d (x - y) >>= _) = _
  rw [hm.down_eq]
  change (getV v ((if down then x - y + 1 else x - y - 1) + offset a b) >>= _) = _
  rw [hprev]
  rfl

theorem Move.back_entry {x y : Int} (hm : Move a b v d (x - y) down px)
    (hf : Furthest a b d (x - y) x)
    (hr : Replays script (a.drop x.toNat) (b.drop y.toNat)) :
    let s := backSnake px (px - prevK (x - y) down) x y script
    Replays s (a.drop (entry down px).toNat) (b.drop (entry down px - (x - y)).toNat) ∧
      cost s = cost script ∧ entry down px ≤ x ∧
      ∀ p, Traced a b d (entry down px) (entry down px - (x - y)) p →
        ∃ q, Traced a b d x y q ∧ p ++ s = q ++ script := by
  obtain ⟨hfollow, hfar⟩ := hm.furthest
  obtain ⟨hs, hsk, -⟩ := Reach.bounds (show Reach a b d (entry down px) _ from hm.reach)
  have hx : (snake a b (entry down px) (entry down px - (x - y))).1 = x :=
    le_antisymm (hf.most _ hfar.reach) (hfar.most _ hf.reach)
  have hle : entry down px ≤ x := hx ▸ hfollow.forward
  have hspec := backSnake_spec (k := x - y) (s := entry down px) (a := a) (b := b) px
    (px - prevK (x - y) down) x script hs hsk hle ?_ ?_ ?_
  · rw [show x - (x - y) = y by omega] at hspec
    exact ⟨hspec.1, hspec.2.1, hle, hspec.2.2 d⟩
  · intro i
    cases down with
    | true => simp only [entry, prevK, if_true]; omega
    | false => simp only [entry, prevK, Bool.false_eq_true, if_false]; omega
  · intro i hi hi'
    have := hfollow.matches_ i hi (hx.symm ▸ hi')
    rwa [show entry down px - (entry down px - (x - y)) = x - y by omega] at this
  · rwa [show x - (x - y) = y by omega]

theorem back_spec {traces : List (List Int)} {x y : Int} (script : List Edit)
    (htr : ∀ e ≤ d, ∃ v, traces[e]? = some v ∧ Snapshot a b v e)
    (hf : Furthest a b d (x - y) x) (hx : x ≤ a.length) (hy : y ≤ b.length)
    (hr : Replays script (a.drop x.toNat) (b.drop y.toNat)) :
    ∃ s, back (offset a b) traces (d + 1) x y script = some s ∧ Replays s a b ∧
      cost s = cost script + d ∧ ∃ q, Traced a b d x y q ∧ s = q ++ script := by
  induction d generalizing x y script with
  | zero =>
    obtain ⟨v, hv, hs⟩ := htr 0 (Nat.le_refl 0)
    have hreach := hf.reach
    rw [show x - (x - y) = y by omega] at hreach
    obtain ⟨down, px, hm⟩ := hs.move (Reach.inRound hreach)
    obtain ⟨hrep, hcost, -, htraced⟩ := hm.back_entry hf hr
    obtain ⟨rfl, rfl, hk⟩ := hm.first rfl
    rw [back_step hv hm]
    refine ⟨_, rfl, ?_, hcost, ?_⟩
    · rw [hk] at hrep ⊢
      exact hrep
    · rw [hk] at htraced
      obtain ⟨q, hq, heq⟩ := htraced [] .origin
      rw [hk]
      exact ⟨q, hq, heq⟩
  | succ d ih =>
    obtain ⟨v, hv, hs⟩ := htr (d + 1) (Nat.le_refl _)
    have hreach := hf.reach
    rw [show x - (x - y) = y by omega] at hreach
    obtain ⟨down, px, hm⟩ := hs.move (Reach.inRound hreach)
    obtain ⟨hrep, hcost, hle, htraced⟩ := hm.back_entry hf hr
    obtain ⟨-, hprev⟩ := hm.prev d rfl
    have hleft := hm.fromLeft d
    have hright := hm.right
    obtain ⟨hpx, hpy, -⟩ := hprev.reach.bounds
    rw [back_step hv hm]
    generalize backSnake px (px - prevK (x - y) down) x y script = s' at hrep hcost htraced ⊢
    have hprev' : Furthest a b d (px - (px - prevK (x - y) down)) px := by
      rwa [show px - (px - prevK (x - y) down) = prevK (x - y) down by omega]
    cases down with
    | true =>
      simp only [entry, prevK, if_true] at *
      have hm' : (px - (x - y + 1)).toNat < b.length := by omega
      have hdrop : Replays (.insert :: s') (a.drop px.toNat)
          (b.drop (px - (x - y + 1)).toNat) := by
        rw [List.drop_eq_getElem_cons hm',
          show (px - (x - y + 1)).toNat + 1 = (px - (x - y)).toNat by omega]
        exact .insert hrep
      obtain ⟨s, hback, hs, hc, q, hq, rfl⟩ := ih _ (fun e he => htr e (by omega)) hprev' (by omega)
        (by omega) hdrop
      refine ⟨_, hback, hs, by rw [hc, cost_insert, hcost]; omega, ?_⟩
      have hstep := hq.insert hprev' fun x' hx' => by
        have := hleft x' trivial (by rwa [show x' - (x - y - 1) =
          x' - (px - (px - (x - y + 1)) - 2) by omega])
        omega
      rw [show px - (x - y + 1) + 1 = px - (x - y) by omega] at hstep
      obtain ⟨q', hq', heq⟩ := htraced _ hstep
      exact ⟨q', hq', by rw [← heq, List.append_assoc]; rfl⟩
    | false =>
      simp only [entry, prevK, Bool.false_eq_true, if_false] at *
      have hn' : px.toNat < a.length := by omega
      have hdrop : Replays (.delete :: s') (a.drop px.toNat)
          (b.drop (px - (x - y - 1)).toNat) := by
        rw [List.drop_eq_getElem_cons hn', show px.toNat + 1 = (px + 1).toNat by omega,
          show px - (x - y - 1) = px + 1 - (x - y) by omega]
        exact .delete hrep
      obtain ⟨s, hback, hs, hc, q, hq, rfl⟩ := ih _ (fun e he => htr e (by omega)) hprev' (by omega)
        (by omega) hdrop
      refine ⟨_, hback, hs, by rw [hc, cost_delete, hcost]; omega, ?_⟩
      have hstep := hq.delete hprev' fun x' hx' => hright trivial d x' rfl (by
        rwa [show x' - (x - y + 1) = x' - (px - (px - (x - y - 1)) + 2) by omega])
      rw [show px - (x - y - 1) = px + 1 - (x - y) by omega] at hstep
      obtain ⟨q', hq', heq⟩ := htraced _ hstep
      exact ⟨q', hq', by rw [← heq, List.append_assoc]; rfl⟩

theorem myers_spec (h : a.length + b.length ≤ budget) : ∃ s, myers a b budget = some (.ok s) ∧
    Replays s a b ∧ (∀ s', Replays s' a b → cost s ≤ cost s') ∧
      (a ≠ [] → b ≠ [] → Traced a b (cost s) a.length b.length s) := by
  rw [myers, if_neg (by omega)]
  by_cases ha : a.length = 0
  · rw [if_pos ha]
    obtain rfl := List.length_eq_zero_iff.mp ha
    refine ⟨_, rfl, replays_inserts b, fun s' hs' => ?_, fun hne => absurd rfl hne⟩
    obtain ⟨cs, hca, -, hlen⟩ := hs'.common
    obtain rfl := List.sublist_nil.mp hca
    simp [cost, List.countP_replicate] at hlen ⊢
    omega
  rw [if_neg ha]
  by_cases hb : b.length = 0
  · rw [if_pos hb]
    obtain rfl := List.length_eq_zero_iff.mp hb
    refine ⟨_, rfl, replays_deletes a, fun s' hs' => ?_, fun _ hne => absurd rfl hne⟩
    obtain ⟨cs, -, hcb, hlen⟩ := hs'.common
    obtain rfl := List.sublist_nil.mp hcb
    simp [cost, List.countP_replicate] at hlen ⊢
    omega
  rw [if_neg hb]
  have hsnap : Snapshot a b (List.replicate (2 * (a.length + b.length) + 1) 0) 0 := by
    refine ⟨List.length_replicate, fun _ => ?_, fun e he => by omega⟩
    rw [getV, if_neg (by unfold offset; omega), List.getElem?_replicate,
      if_pos (by unfold offset; omega)]
  obtain ⟨D, traces, hsearch, hfound⟩ := search_spec []
    (Nat.add_zero (a.length + b.length + 1)) hsnap rfl (fun e he => by omega) (fun e he => by omega)
  obtain ⟨s, hback, hs, hc, q, hq, hsq⟩ := back_spec (x := a.length) (y := b.length) []
    hfound.snapshots hfound.furthest (le_refl _) (le_refl _) (by simpa using Replays.nil)
  rw [List.append_nil] at hsq
  subst hsq
  refine ⟨s, ?_, hs, fun s' hs' => ?_, fun _ _ => ?_⟩
  · change (search a b (offset a b) (a.length + b.length + 1) 0 _ [] >>= _) = _
    rw [hsearch]
    change (back (offset a b) traces (D + 1) a.length b.length [] >>= _) = _
    rw [hback]
    rfl
  · by_contra hlt
    rw [hc, cost_nil, Nat.zero_add] at hlt
    exact hfound.first _ (by omega) hs'.reach
  · rw [hc, cost_nil, Nat.zero_add]
    exact hq

end

end AScript.Stdlib.Diff
