import Mathlib.Data.List.Forall2
import Mathlib.Tactic.Common
import Mathlib.Tactic.Linarith

namespace AScript.Lib

inductive Edit
  | equal
  | delete
  | insert
  deriving DecidableEq

namespace Edit

/-- The script takes both lists from the front to the end. -/
inductive Replays : List Edit → List α → List α → Prop
  | nil : Replays [] [] []
  | equal : Replays s as bs → Replays (.equal :: s) (c :: as) (c :: bs)
  | delete : Replays s as bs → Replays (.delete :: s) (c :: as) bs
  | insert : Replays s as bs → Replays (.insert :: s) as (c :: bs)

/-- How many steps change something. -/
def cost (s : List Edit) : Nat := s.countP (· ≠ .equal)

@[simp] theorem cost_nil : cost [] = 0 := rfl

@[simp] theorem cost_equal : cost (.equal :: s) = cost s := List.countP_cons_of_neg (by decide)

@[simp] theorem cost_delete : cost (.delete :: s) = cost s + 1 :=
  List.countP_cons_of_pos (by decide)

@[simp] theorem cost_insert : cost (.insert :: s) = cost s + 1 :=
  List.countP_cons_of_pos (by decide)

theorem replays_inserts (bs : List α) : Replays (List.replicate bs.length .insert) [] bs := by
  induction bs with
  | nil => exact .nil
  | cons b bs ih => exact .insert ih

theorem replays_deletes (as : List α) : Replays (List.replicate as.length .delete) as [] := by
  induction as with
  | nil => exact .nil
  | cons a as ih => exact .delete ih

theorem Replays.of_forall₂ {R : α → β → Prop} (hR : ∀ x y z, R x z → R y z → x = y)
    (h : Replays s as bs) (ha : List.Forall₂ R as' as) (hb : List.Forall₂ R bs' bs) :
    Replays s as' bs' := by
  induction h generalizing as' bs' with
  | nil =>
    cases ha
    cases hb
    exact .nil
  | equal _ ih =>
    cases ha with
    | cons hx ha =>
      cases hb with
      | cons hy hb =>
        obtain rfl := hR _ _ _ hx hy
        exact .equal (ih ha hb)
  | delete _ ih =>
    cases ha with
    | cons _ ha => exact .delete (ih ha hb)
  | insert _ ih =>
    cases hb with
    | cons _ hb => exact .insert (ih ha hb)

theorem Replays.of_map {f : α → β} {as bs : List α} (h : Replays s (as.map f) (bs.map f))
    (hf : ∀ x ∈ as, ∀ y ∈ bs, f x = f y → x = y) : Replays s as bs := by
  generalize ha : as.map f = as' at h
  generalize hb : bs.map f = bs' at h
  induction h generalizing as bs with
  | nil =>
    rw [List.map_eq_nil_iff] at ha hb
    subst ha hb
    exact .nil
  | equal _ ih =>
    obtain ⟨x, as, rfl, hx, rfl⟩ := List.map_eq_cons_iff.mp ha
    obtain ⟨y, bs, rfl, hy, rfl⟩ := List.map_eq_cons_iff.mp hb
    obtain rfl := hf x (.head _) y (.head _) (hx.trans hy.symm)
    exact .equal (ih (fun x hx y hy => hf x (.tail _ hx) y (.tail _ hy)) rfl rfl)
  | delete _ ih =>
    obtain ⟨x, as, rfl, -, rfl⟩ := List.map_eq_cons_iff.mp ha
    exact .delete (ih (fun x hx => hf x (.tail _ hx)) rfl hb)
  | insert _ ih =>
    obtain ⟨y, bs, rfl, -, rfl⟩ := List.map_eq_cons_iff.mp hb
    exact .insert (ih (fun x hx y hy => hf x hx y (.tail _ hy)) ha rfl)

theorem replays_self (as : List α) : Replays (List.replicate as.length .equal) as as := by
  induction as with
  | nil => exact .nil
  | cons a as ih => exact .equal ih

theorem Replays.length_le {as bs : List α} (h : Replays s as bs) :
    s.length ≤ as.length + bs.length := by
  induction h with
  | nil => exact Nat.le_refl _
  | equal _ ih => simp only [List.length_cons]; omega
  | delete _ ih => simp only [List.length_cons]; omega
  | insert _ ih => simp only [List.length_cons]; omega

theorem cost_eq_zero : cost s = 0 ↔ ∀ e ∈ s, e = .equal := by
  rw [cost, List.countP_eq_zero]
  exact forall₂_congr fun e _ => by rw [decide_eq_true_eq, not_not]

theorem Replays.eq_of_equal {as bs : List α} (h : Replays s as bs) (hs : ∀ e ∈ s, e = .equal) :
    as = bs := by
  induction h with
  | nil => rfl
  | equal _ ih => rw [ih fun e he => hs e (.tail _ he)]
  | delete => exact nomatch hs _ (.head _)
  | insert => exact nomatch hs _ (.head _)

theorem Replays.common {as bs : List α} (h : Replays s as bs) : ∃ cs : List α,
    cs.Sublist as ∧ cs.Sublist bs ∧ cost s + 2 * cs.length = as.length + bs.length := by
  induction h with
  | nil => exact ⟨[], .slnil, .slnil, rfl⟩
  | @equal _ _ _ c _ ih =>
    obtain ⟨cs, ha, hb, hlen⟩ := ih
    exact ⟨c :: cs, ha.cons_cons c, hb.cons_cons c,
      by simp only [cost_equal, List.length_cons]; omega⟩
  | @delete _ _ _ c _ ih =>
    obtain ⟨cs, ha, hb, hlen⟩ := ih
    exact ⟨cs, ha.cons c, hb, by simp only [cost_delete, List.length_cons]; omega⟩
  | @insert _ _ _ c _ ih =>
    obtain ⟨cs, ha, hb, hlen⟩ := ih
    exact ⟨cs, ha, hb.cons c, by simp only [cost_insert, List.length_cons]; omega⟩

theorem exists_replays {cs as bs : List α} (ha : cs.Sublist as) (hb : cs.Sublist bs) :
    ∃ s, Replays s as bs ∧ cost s + 2 * cs.length = as.length + bs.length := by
  induction ha generalizing bs with
  | slnil =>
    refine ⟨_, replays_inserts bs, ?_⟩
    simp [cost, List.countP_replicate]
  | cons a _ ih =>
    obtain ⟨s, hs, hlen⟩ := ih hb
    exact ⟨_, hs.delete, by simp only [cost_delete, List.length_cons]; omega⟩
  | @cons_cons cs as c _ ih =>
    induction bs with
    | nil => cases hb
    | cons b bs ihb =>
      cases hb with
      | cons _ hb =>
        obtain ⟨s, hs, hlen⟩ := ihb hb
        exact ⟨_, hs.insert, by simp only [cost_insert, List.length_cons] at hlen ⊢; omega⟩
      | cons_cons _ hb =>
        obtain ⟨s, hs, hlen⟩ := ih hb
        exact ⟨_, hs.equal, by simp only [cost_equal, List.length_cons]; omega⟩

section Graph

variable (as bs : List α)

def Match (x y : Int) : Prop :=
  0 ≤ x ∧ 0 ≤ y ∧ ∃ c, as[x.toNat]? = some c ∧ bs[y.toNat]? = some c

inductive Reach : Nat → Int → Int → Prop
  | origin : Reach 0 0 0
  | delete : Reach d x y → Reach (d + 1) (x + 1) y
  | insert : Reach d x y → Reach (d + 1) x (y + 1)
  | equal : Reach d x y → Match as bs x y → Reach d (x + 1) (y + 1)

/-- The point on diagonal `k` that so many changes reach and no further one. -/
structure Furthest (d : Nat) (k x : Int) : Prop where
  reach : Reach as bs d x (x - k)
  most : ∀ x', Reach as bs d x' (x' - k) → x' ≤ x

inductive Traced : Nat → Int → Int → List Edit → Prop
  | origin : Traced 0 0 0 []
  | equal : Traced d x y s → Match as bs x y → Traced d (x + 1) (y + 1) (s ++ [.equal])
  | insert : Traced d x y s → Furthest as bs d (x - y) x →
      (∀ x', Reach as bs d x' (x' - (x - y - 2)) → x' < x) →
        Traced (d + 1) x (y + 1) (s ++ [.insert])
  | delete : Traced d x y s → Furthest as bs d (x - y) x →
      (∀ x', Reach as bs d x' (x' - (x - y + 2)) → x' ≤ x) →
        Traced (d + 1) (x + 1) y (s ++ [.delete])

variable {as bs}

theorem Reach.bounds (h : Reach as bs d x y) :
    0 ≤ x ∧ 0 ≤ y ∧ x - y ≤ d ∧ y - x ≤ d ∧ (x - y - d) % 2 = 0 := by
  induction h with
  | origin => decide
  | delete _ ih => omega
  | insert _ ih => omega
  | equal _ _ ih => omega

theorem Match.bounds (h : Match as bs x y) : x < as.length ∧ y < bs.length := by
  obtain ⟨hx, hy, c, ha, hb⟩ := h
  have ha := (List.getElem?_eq_some_iff.mp ha).1
  have hb := (List.getElem?_eq_some_iff.mp hb).1
  omega

theorem Reach.clip (h : Reach as bs d x y) : ∃ d', Reach as bs d' (min x as.length)
    (min y bs.length) ∧ d' + (x - min x as.length) + (y - min y bs.length) ≤ d := by
  induction h with
  | origin => exact ⟨0, by simpa using .origin, by omega⟩
  | @delete d x y _ ih =>
    obtain ⟨d', hr, hd⟩ := ih
    by_cases hx : x < as.length
    · refine ⟨d' + 1, ?_, by omega⟩
      rw [min_eq_left (by omega : x ≤ as.length)] at hr
      rw [min_eq_left (by omega : x + 1 ≤ as.length)]
      exact .delete hr
    · refine ⟨d', ?_, by omega⟩
      rw [min_eq_right (by omega : (as.length : Int) ≤ x)] at hr
      rw [min_eq_right (by omega : (as.length : Int) ≤ x + 1)]
      exact hr
  | @insert d x y _ ih =>
    obtain ⟨d', hr, hd⟩ := ih
    by_cases hy : y < bs.length
    · refine ⟨d' + 1, ?_, by omega⟩
      rw [min_eq_left (by omega : y ≤ bs.length)] at hr
      rw [min_eq_left (by omega : y + 1 ≤ bs.length)]
      exact .insert hr
    · refine ⟨d', ?_, by omega⟩
      rw [min_eq_right (by omega : (bs.length : Int) ≤ y)] at hr
      rw [min_eq_right (by omega : (bs.length : Int) ≤ y + 1)]
      exact hr
  | @equal d x y _ hm ih =>
    obtain ⟨d', hr, hd⟩ := ih
    obtain ⟨hx, hy⟩ := hm.bounds
    refine ⟨d', ?_, by omega⟩
    rw [min_eq_left (by omega), min_eq_left (by omega)] at hr ⊢
    exact .equal hr hm

theorem Replays.reach_from (h : Replays s as' bs') (hr : Reach as bs d x y)
    (hx : as.drop x.toNat = as') (hy : bs.drop y.toNat = bs') (hxn : x ≤ as.length)
    (hyn : y ≤ bs.length) : Reach as bs (d + cost s) as.length bs.length := by
  induction h generalizing d x y with
  | nil =>
    obtain ⟨hx0, hy0, -⟩ := hr.bounds
    rw [List.drop_eq_nil_iff] at hx hy
    obtain rfl : x = as.length := by omega
    obtain rfl : y = bs.length := by omega
    exact hr
  | @equal s as' bs' c _ ih =>
    obtain ⟨hx0, hy0, -⟩ := hr.bounds
    obtain ⟨n, rfl⟩ := Int.eq_ofNat_of_zero_le hx0
    obtain ⟨m, rfl⟩ := Int.eq_ofNat_of_zero_le hy0
    rw [Int.toNat_natCast] at hx hy
    have ha : as[n]? = some c := by rw [← List.head?_drop, hx]; rfl
    have hb : bs[m]? = some c := by rw [← List.head?_drop, hy]; rfl
    have hmatch : Match as bs n m := ⟨hx0, hy0, c, ha, hb⟩
    rw [cost_equal]
    refine ih (.equal hr hmatch) ?_ ?_ (by have := hmatch.bounds; omega)
      (by have := hmatch.bounds; omega)
    · change as.drop (n + 1) = as'
      rw [← List.drop_drop, hx]
      rfl
    · change bs.drop (m + 1) = bs'
      rw [← List.drop_drop, hy]
      rfl
  | @delete s as' bs' c _ ih =>
    obtain ⟨hx0, -⟩ := hr.bounds
    obtain ⟨n, rfl⟩ := Int.eq_ofNat_of_zero_le hx0
    rw [Int.toNat_natCast] at hx
    have hn : n < as.length := by
      by_contra hge
      rw [List.drop_eq_nil_iff.mpr (by omega)] at hx
      cases hx
    rw [cost_delete, Nat.add_comm (cost s), ← Nat.add_assoc]
    refine ih (.delete hr) ?_ hy (by omega) hyn
    change as.drop (n + 1) = as'
    rw [← List.drop_drop, hx]
    rfl
  | @insert s as' bs' c _ ih =>
    obtain ⟨-, hy0, -⟩ := hr.bounds
    obtain ⟨m, rfl⟩ := Int.eq_ofNat_of_zero_le hy0
    rw [Int.toNat_natCast] at hy
    have hm : m < bs.length := by
      by_contra hge
      rw [List.drop_eq_nil_iff.mpr (by omega)] at hy
      cases hy
    rw [cost_insert, Nat.add_comm (cost s), ← Nat.add_assoc]
    refine ih (.insert hr) hx ?_ hxn (by omega)
    change bs.drop (m + 1) = bs'
    rw [← List.drop_drop, hy]
    rfl

theorem Replays.reach (h : Replays s as bs) : Reach as bs (cost s) as.length bs.length := by
  have h := h.reach_from (.origin) rfl rfl (by omega) (by omega)
  rwa [Nat.zero_add] at h

theorem furthest_of_stop (hr : Reach as bs d x (x - k)) (hstop : ¬ Match as bs x (x - k))
    (hdelete : ∀ e x', e + 1 = d → Reach as bs e x' (x' - (k - 1)) → x' + 1 ≤ x)
    (hinsert : ∀ e x', e + 1 = d → Reach as bs e x' (x' - (k + 1)) → x' ≤ x) :
    Furthest as bs d k x := by
  refine ⟨hr, fun x' h => ?_⟩
  generalize hy : x' - k = y at h
  induction h with
  | origin => exact hr.bounds.1
  | @delete e x' y h _ => exact hdelete e x' rfl (by rwa [show x' - (k - 1) = y by omega])
  | @insert e x' y h _ => exact hinsert e x' rfl (by rwa [show x' - (k + 1) = y by omega])
  | @equal e x' y h hm ih =>
    have hle := ih hr hdelete hinsert (by omega)
    have hne : x' ≠ x := by
      rintro rfl
      exact hstop (by rwa [show x' - k = y by omega])
    omega

section Congr

variable {as' : List β} {bs' : List β}

theorem Reach.congr (hm : ∀ x y, Match as bs x y → Match as' bs' x y) (h : Reach as bs d x y) :
    Reach as' bs' d x y := by
  induction h with
  | origin => exact .origin
  | delete _ ih => exact .delete ih
  | insert _ ih => exact .insert ih
  | equal _ h ih => exact .equal ih (hm _ _ h)

theorem Traced.congr (hm : ∀ x y, Match as bs x y ↔ Match as' bs' x y)
    (h : Traced as bs d x y s) : Traced as' bs' d x y s := by
  have hfar : ∀ {d k x}, Furthest as bs d k x → Furthest as' bs' d k x := fun hf =>
    ⟨hf.reach.congr fun x y => (hm x y).mp, fun x' hx' =>
      hf.most x' (hx'.congr fun x y => (hm x y).mpr)⟩
  induction h with
  | origin => exact .origin
  | equal _ h ih => exact .equal ih ((hm _ _).mp h)
  | insert _ hf hmost ih =>
    exact .insert ih (hfar hf) fun x' hx' => hmost x' (hx'.congr fun x y => (hm x y).mpr)
  | delete _ hf hmost ih =>
    exact .delete ih (hfar hf) fun x' hx' => hmost x' (hx'.congr fun x y => (hm x y).mpr)

end Congr

end Graph

def commonPrefix [DecidableEq α] : List α → List α → Nat
  | a :: as, b :: bs => if a = b then commonPrefix as bs + 1 else 0
  | _, _ => 0

theorem Replays.kept_le [DecidableEq α] {as bs : List α} (h : Replays s as bs) :
    (s.takeWhile (· = .equal)).length ≤ commonPrefix as bs := by
  induction h with
  | nil => exact Nat.zero_le _
  | equal _ ih =>
    rw [commonPrefix, if_pos rfl, List.takeWhile_cons_of_pos rfl]
    exact Nat.succ_le_succ ih
  | delete => exact Nat.zero_le _
  | insert => exact Nat.zero_le _

end Edit
end AScript.Lib
