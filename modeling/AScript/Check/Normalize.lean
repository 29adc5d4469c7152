import Mathlib.Data.List.Duplicate
import Mathlib.Data.Prod.Lex
import AScript.Check.Refute

/-! When `normalize` computes a canonical form, and the laws of `join` (`check/infer/ty.rs`). -/

namespace AScript.Check
namespace CheckTy

mutual

theorem beq_self (t : CheckTy) : beq t t = true := by
  cases t with
  | array t | result t | future t => exact beq_self t
  | map k v => exact Bool.and_eq_true_iff.mpr ⟨beq_self k, beq_self v⟩
  | tuple ts | union ts => exact beqs_self ts
  | var i bound =>
    cases bound with
    | none => exact beq_self_eq_true i
    | some b => exact Bool.and_eq_true_iff.mpr ⟨beq_self_eq_true i, beq_self b⟩
  | fnSig ps r => exact Bool.and_eq_true_iff.mpr ⟨beqs_self ps, beq_self r⟩
  | classApp i ts | enumApp i ts =>
    exact Bool.and_eq_true_iff.mpr ⟨beq_self_eq_true i, beqs_self ts⟩
  | _ => simp [beq]

theorem beqs_self (ts : List CheckTy) : beqs ts ts = true := by
  cases ts with
  | nil => rfl
  | cons t ts => exact Bool.and_eq_true_iff.mpr ⟨beq_self t, beqs_self ts⟩

end

mutual

theorem eq_of_beq {s d : CheckTy} (h : beq s d = true) : s = d := by
  rw [beq.eq_def] at h
  split at h
  all_goals first
    | rfl
    | cases h
    | skip
  · exact congrArg _ (of_decide_eq_true h)
  · exact congrArg _ (eq_of_beq h)
  · exact congrArg _ (eq_of_beq h)
  · exact congrArg _ (eq_of_beq h)
  · rw [Bool.and_eq_true] at h
    rw [eq_of_beq h.1, eq_of_beq h.2]
  · exact congrArg _ (eqs_of_beqs h)
  · exact congrArg _ (eqs_of_beqs h)
  · exact congrArg _ (beq_iff_eq.mp h)
  · exact congrArg _ (beq_iff_eq.mp h)
  · exact congrArg _ (beq_iff_eq.mp h)
  · rw [Bool.and_eq_true, beq_iff_eq, beq_iff_eq] at h
    rw [h.1, h.2]
  · exact congrArg _ (of_decide_eq_true h)
  · rw [beq_iff_eq.mp h]
  · rw [Bool.and_eq_true, beq_iff_eq] at h
    rw [h.1, eq_of_beq h.2]
  · rw [Bool.and_eq_true] at h
    rw [eqs_of_beqs h.1, eq_of_beq h.2]
  · rw [Bool.and_eq_true, beq_iff_eq] at h
    rw [h.1, eqs_of_beqs h.2]
  · rw [Bool.and_eq_true, beq_iff_eq] at h
    rw [h.1, eqs_of_beqs h.2]

theorem eqs_of_beqs {ss ds : List CheckTy} (h : beqs ss ds = true) : ss = ds := by
  match ss, ds with
  | [], [] => rfl
  | s :: ss, d :: ds =>
    rw [beqs, Bool.and_eq_true] at h
    rw [eq_of_beq h.1, eqs_of_beqs h.2]
  | [], _ :: _ => cases h
  | _ :: _, [] => cases h

end

theorem beq_iff {s d : CheckTy} : beq s d = true ↔ s = d :=
  ⟨eq_of_beq, fun h => h ▸ beq_self s⟩

instance : DecidableEq CheckTy := fun _ _ => decidable_of_iff _ beq_iff

def key (t : CheckTy) : Nat ×ₗ Nat := toLex (t.discriminantOrder, t.secondaryKey)

theorem memberLe_iff : memberLe a b = true ↔ key a ≤ key b := by
  simp [memberLe, key, Prod.Lex.toLex_le_toLex]

instance : Std.Total fun a b : CheckTy => memberLe a b = true where
  total a b := by
    rw [memberLe_iff, memberLe_iff]
    exact le_total _ _

instance : IsTrans CheckTy fun a b => memberLe a b = true where
  trans a b c hab hbc := by
    rw [memberLe_iff] at hab hbc ⊢
    exact le_trans hab hbc

theorem mem_dedupFrom_iff {ts : List CheckTy} : m ∈ dedupFrom t ts ↔ m ∈ t :: ts := by
  refine ⟨mem_dedupFrom, fun h => ?_⟩
  induction ts generalizing t with
  | nil => exact h
  | cons u ts ih =>
    rw [dedupFrom]
    split
    · next htu =>
      obtain rfl := eq_of_beq htu
      exact ih (by simpa using h)
    · rcases List.mem_cons.mp h with rfl | h
      · exact List.mem_cons_self
      · exact List.mem_cons_of_mem _ (ih h)

theorem mem_dedup_iff {ts : List CheckTy} : m ∈ dedup ts ↔ m ∈ ts := by
  cases ts with
  | nil => exact Iff.rfl
  | cons t ts => exact mem_dedupFrom_iff

theorem dedupFrom_nodup {ts : List CheckTy} (h : (t :: ts).Nodup) : dedupFrom t ts = t :: ts := by
  induction ts generalizing t with
  | nil => rfl
  | cons u ts ih =>
    obtain ⟨ht, h⟩ := List.nodup_cons.mp h
    have htu : t ≠ u := fun htu => ht (htu ▸ List.mem_cons_self)
    rw [dedupFrom, if_neg (mt eq_of_beq htu), ih h]

theorem dedup_nodup {ts : List CheckTy} (h : ts.Nodup) : dedup ts = ts := by
  cases ts with
  | nil => rfl
  | cons t ts => exact dedupFrom_nodup h

def Separated (ts : List CheckTy) : Prop := ∀ x ∈ ts, ∀ y ∈ ts, key x = key y → x = y

theorem dedupFrom_sorted {ts : List CheckTy}
    (hs : (t :: ts).Pairwise fun a b => memberLe a b = true) (hk : Separated (t :: ts)) :
      (dedupFrom t ts).Pairwise fun a b => key a < key b := by
  induction ts generalizing t with
  | nil => exact List.pairwise_singleton _ _
  | cons u ts ih =>
    obtain ⟨ht, hs⟩ := List.pairwise_cons.mp hs
    have htail : Separated (u :: ts) := fun x hx y hy =>
      hk x (List.mem_cons_of_mem _ hx) y (List.mem_cons_of_mem _ hy)
    rw [dedupFrom]
    split
    · next htu =>
      obtain rfl := eq_of_beq htu
      exact ih hs htail
    · next htu =>
      refine List.pairwise_cons.mpr ⟨fun m hm => ?_, ih hs htail⟩
      have hlt : key t < key u := by
        refine lt_of_le_of_ne (memberLe_iff.mp (ht u List.mem_cons_self)) fun heq => htu ?_
        exact beq_iff.mpr (hk t List.mem_cons_self u (by simp) heq)
      rcases List.mem_cons.mp (mem_dedupFrom hm) with rfl | hm
      · exact hlt
      · exact lt_of_lt_of_le hlt (memberLe_iff.mp ((List.pairwise_cons.mp hs).1 m hm))

theorem dedup_sorted {ts : List CheckTy} (hs : ts.Pairwise fun a b => memberLe a b = true)
    (hk : Separated ts) : (dedup ts).Pairwise fun a b => key a < key b := by
  cases ts with
  | nil => exact .nil
  | cons t ts => exact dedupFrom_sorted hs hk

theorem dedupFrom_once {ts : List CheckTy}
    (hs : (t :: ts).Pairwise fun a b => memberLe a b = true)
    (h : ∀ x, [x, x].Sublist (t :: ts) → ∀ y ∈ t :: ts, key y = key x → y = x) :
    (dedupFrom t ts).Nodup := by
  induction ts generalizing t with
  | nil => exact List.nodup_singleton t
  | cons u ts ih =>
    obtain ⟨ht, hs⟩ := List.pairwise_cons.mp hs
    have hih := ih hs fun x hx y hy =>
      h x (hx.cons _) y (List.mem_cons_of_mem _ hy)
    rw [dedupFrom]
    split
    · next htu =>
      obtain rfl := eq_of_beq htu
      exact hih
    · next htu =>
      refine List.nodup_cons.mpr ⟨fun hmem => htu ?_, hih⟩
      rcases List.mem_cons.mp (mem_dedupFrom hmem) with rfl | hmem
      · exact beq_self t
      -- everything between two equal members has their key
      have hle : key t ≤ key u := memberLe_iff.mp (ht u List.mem_cons_self)
      have hge : key u ≤ key t := memberLe_iff.mp ((List.pairwise_cons.mp hs).1 t hmem)
      have htwice : [t, t].Sublist (t :: u :: ts) :=
        (List.singleton_sublist.mpr (List.mem_cons_of_mem u hmem)).cons_cons t
      exact beq_iff.mpr (h t htwice u (by simp) (le_antisymm hge hle)).symm

theorem dedupFrom_pair {ts : List CheckTy} (hne : a ≠ b) (h : [a, b].Sublist (t :: ts)) :
    [a, b].Sublist (dedupFrom t ts) := by
  induction ts generalizing t with
  | nil => exact absurd h.length_le (by simp)
  | cons u ts ih =>
    rw [dedupFrom]
    split
    · next htu =>
      obtain rfl := eq_of_beq htu
      refine ih ?_
      cases h with
      | cons _ h => exact h
      | cons_cons _ h =>
        have hb : b ∈ ts := (List.mem_cons.mp (List.singleton_sublist.mp h)).resolve_left hne.symm
        exact (List.singleton_sublist.mpr hb).cons_cons _
    · cases h with
      | cons _ h => exact (ih h).cons t
      | cons_cons _ h =>
        have hb := mem_dedupFrom_iff.mpr (List.singleton_sublist.mp h)
        exact (List.singleton_sublist.mpr hb).cons_cons _

def canon (ms : List CheckTy) : List CheckTy :=
  dedup ((flattenAll ms).insertionSort fun a b => memberLe a b)

theorem mem_canon {ms : List CheckTy} : m ∈ canon ms ↔ m ∈ flattenAll ms := by
  rw [canon, mem_dedup_iff, List.mem_insertionSort]

theorem normalize_union (ms : List CheckTy) : normalize (.union ms) =
    if (flattenAll ms).any isGradual then .any
    else match canon ms with
      | [] => .never
      | [t] => t
      | ts => if ts.length > unionWidthCap then .any else .union ts := rfl

theorem flattenAll_members {ms : List CheckTy} (h : ∀ m ∈ ms, m.isMember = true) :
    flattenAll ms = ms.reverse := by
  induction ms with
  | nil => rfl
  | cons m ms ih =>
    rw [List.forall_mem_cons] at h
    have hm : flatten m = [m] := by
      cases m <;> first | rfl | exact absurd h.1 nofun
    rw [flattenAll, ih h.2, hm, List.reverse_cons]

theorem members_flat (hg : (flattenAll ms).any isGradual = false) :
    ∀ m ∈ flattenAll ms, m.isMember = true := fun m hm =>
  (mem_flattenAll ms hm).resolve_right fun hgm =>
    Bool.false_ne_true (hg.symm.trans (List.any_eq_true.mpr ⟨m, hm, hgm⟩))

theorem members_canon (hg : (flattenAll ms).any isGradual = false) :
    ∀ m ∈ canon ms, m.isMember = true := fun m hm => members_flat hg m (mem_canon.mp hm)

theorem not_gradual {ms : List CheckTy} (h : ∀ m ∈ ms, m.isMember = true) :
    ms.any isGradual = false := by
  rw [List.any_eq_false]
  intro m hm hg
  have hm := h m hm
  cases m <;> simp [isMember, isGradual] at hm hg

theorem normalize_gradual (hg : (flattenAll ms).any isGradual = true) :
    normalize (.union ms) = .any := by
  rw [normalize_union, if_pos hg]

theorem normalize_wide (hlen : unionWidthCap < (canon ms).length) :
    normalize (.union ms) = .any := by
  rw [normalize_union]
  split
  · rfl
  split
  · next h => simp [h] at hlen
  · next h => simp [h, unionWidthCap] at hlen
  · rw [if_pos hlen]

theorem normalize_members (hg : (flattenAll ms).any isGradual = false)
    (h : 2 ≤ (canon ms).length) (hlen : (canon ms).length ≤ unionWidthCap) :
    normalize (.union ms) = .union (canon ms) := by
  rw [normalize_union, hg]
  simp only [Bool.false_eq_true, if_false]
  split
  · next hc => exact absurd h (by rw [hc]; decide)
  · next hc => exact absurd h (by rw [hc]; simp)
  · rw [if_neg (Nat.not_lt.mpr hlen)]

theorem normalize_eq_union (h : normalize (.union ms) = .union us) : us = canon ms ∧
    (flattenAll ms).any isGradual = false ∧ 2 ≤ us.length ∧ us.length ≤ unionWidthCap := by
  cases hg : (flattenAll ms).any isGradual with
  | true =>
    rw [normalize_gradual hg] at h
    cases h
  | false =>
    have hmem := members_canon hg
    by_cases hwide : unionWidthCap < (canon ms).length
    · rw [normalize_wide hwide] at h
      cases h
    · rw [normalize_union, hg] at h
      simp only [Bool.false_eq_true, if_false] at h
      match hc : canon ms with
      | [] =>
        rw [hc] at h
        cases h
      | [t] =>
        rw [hc] at h hmem
        obtain rfl : t = .union us := h
        exact absurd (hmem _ List.mem_cons_self) nofun
      | t :: u :: ts =>
        rw [hc] at h hwide
        dsimp only at h
        rw [if_neg hwide] at h
        obtain rfl := CheckTy.union.inj h
        exact ⟨rfl, rfl, by simp, Nat.not_lt.mp hwide⟩

instance : Std.Irrefl fun a b : CheckTy => key a < key b where
  irrefl a := lt_irrefl (key a)

instance : Std.Antisymm fun a b : CheckTy => key a < key b where
  antisymm _ _ hab hba := absurd hba (lt_asymm hab)

theorem canon_sorted (hk : Separated (flattenAll ms)) :
    (canon ms).Pairwise fun a b => key a < key b := by
  refine dedup_sorted (List.pairwise_insertionSort _ _) fun x hx y hy => hk x ?_ y ?_
  · exact (List.mem_insertionSort _).mp hx
  · exact (List.mem_insertionSort _).mp hy

theorem canon_nodup (hk : Separated (flattenAll ms)) : (canon ms).Nodup :=
  (canon_sorted hk).imp fun h heq => absurd (congrArg key heq) (ne_of_lt h)

theorem canon_once
    (h : ∀ x, 2 ≤ (flattenAll ms).count x → ∀ y ∈ flattenAll ms, key y = key x → y = x) :
    (canon ms).Nodup := by
  rw [canon]
  cases hsort : (flattenAll ms).insertionSort fun a b => memberLe a b with
  | nil => exact List.nodup_nil
  | cons t ts =>
    have hperm : (t :: ts).Perm (flattenAll ms) := hsort ▸ List.perm_insertionSort _ _
    have hsorted : (t :: ts).Pairwise fun a b => memberLe a b = true :=
      hsort ▸ List.pairwise_insertionSort _ _
    refine dedupFrom_once hsorted fun x hx y hy => h x ?_ y (hperm.mem_iff.mp hy)
    rw [← hperm.count_eq]
    exact List.duplicate_iff_two_le_count.mp (List.duplicate_iff_sublist.mpr hx)

theorem canon_pair (hkey : key a = key b) (hne : a ≠ b) (h : [a, b].Sublist (flattenAll ms)) :
    [a, b].Sublist (canon ms) := by
  have hle : memberLe a b = true := memberLe_iff.mpr hkey.le
  have hsort := List.pair_sublist_insertionSort (r := fun a b => memberLe a b) hle h
  rw [canon]
  cases hc : (flattenAll ms).insertionSort fun a b => memberLe a b with
  | nil =>
    rw [hc] at hsort
    cases hsort
  | cons t ts =>
    rw [hc] at hsort
    exact dedupFrom_pair hne hsort

def SameMembers (ms ms' : List CheckTy) : Prop := ∀ m, m ∈ flattenAll ms ↔ m ∈ flattenAll ms'

theorem SameMembers.gradual (h : SameMembers ms ms') :
    (flattenAll ms).any isGradual = (flattenAll ms').any isGradual := by
  rw [Bool.eq_iff_iff, List.any_eq_true, List.any_eq_true]
  exact exists_congr fun m => and_congr_left' (h m)

theorem canon_congr (hk : Separated (flattenAll ms)) (h : SameMembers ms' ms) :
    canon ms' = canon ms := by
  have hk' : Separated (flattenAll ms') := fun x hx y hy => hk x ((h x).mp hx) y ((h y).mp hy)
  refine (canon_sorted hk').eq_of_mem_iff (canon_sorted hk) fun m => ?_
  rw [mem_canon, mem_canon, h]

theorem distinct_le (ms : List CheckTy) : (flattenAll ms).dedup.length ≤ (canon ms).length :=
  (List.subperm_of_subset (List.nodup_dedup _) fun _ hm =>
    mem_canon.mpr (List.mem_dedup.mp hm)).length_le

theorem distinct_congr (h : SameMembers ms ms') :
    (flattenAll ms).dedup.length = (flattenAll ms').dedup.length :=
  ((List.perm_ext_iff_of_nodup (List.nodup_dedup _) (List.nodup_dedup _)).mpr fun m => by
    rw [List.mem_dedup, List.mem_dedup, h]).length_eq

structure UnionLaws (ms : List CheckTy) : Prop where
  members : ∀ us, normalize (.union ms) = .union us →
    (∀ m ∈ us, m.isUnion = false ∧ m ≠ .never) ∧ us.Nodup
  idempotent : normalize (normalize (.union ms)) = normalize (.union ms)
  canonical : ∀ ms', SameMembers ms' ms → normalize (.union ms') = normalize (.union ms)

/-- A gradual member swallows the union, more than eight different ones are too many, or each
key has one member. -/
def Canonical (ms : List CheckTy) : Prop :=
  (flattenAll ms).any isGradual = true ∨ unionWidthCap < (flattenAll ms).dedup.length ∨
    Separated (flattenAll ms)

theorem Canonical.congr (hc : Canonical ms) (h : SameMembers ms' ms) :
    normalize (.union ms') = normalize (.union ms) := by
  rcases hc with hg | hwide | hk
  · rw [normalize_gradual hg, normalize_gradual (h.gradual.trans hg)]
  · rw [normalize_wide (hwide.trans_le (distinct_le ms)),
      normalize_wide ((distinct_congr h ▸ hwide).trans_le (distinct_le ms'))]
  · rw [normalize_union, normalize_union, h.gradual, canon_congr hk h]

theorem Canonical.nodup (hc : Canonical ms) (h : normalize (.union ms) = .union us) : us.Nodup := by
  obtain ⟨rfl, hg, -, hlen⟩ := normalize_eq_union h
  rcases hc with hg' | hwide | hk
  · rw [hg] at hg'
    cases hg'
  · exact absurd (hwide.trans_le (distinct_le ms)) (Nat.not_lt.mpr hlen)
  · exact canon_nodup hk

theorem isMember_not_union {m : CheckTy} (h : m.isMember = true) :
    m.isUnion = false ∧ m ≠ .never := by
  cases m <;> simp [isMember, isUnion] at h ⊢

theorem Canonical.laws (hc : Canonical ms) : UnionLaws ms where
  members us h := by
    have hmem := members_canon (normalize_eq_union h).2.1
    rw [← (normalize_eq_union h).1] at hmem
    exact ⟨fun m hm => isMember_not_union (hmem m hm), hc.nodup h⟩
  idempotent := by
    cases hu : normalize (.union ms) with
    | union us =>
      obtain ⟨rfl, hg, -, -⟩ := normalize_eq_union hu
      refine (hc.congr fun m => ?_).trans hu
      rw [flattenAll_members (members_canon hg), List.mem_reverse, mem_canon]
    | _ => rfl
  canonical _ h := hc.congr h

theorem normalize_nodup {us : List CheckTy} (hm : ∀ m ∈ us, m.isMember = true) (hn : us.Nodup)
    (h : 2 ≤ us.length) (hlen : us.length ≤ unionWidthCap) :
    normalize (.union us) = .union (us.reverse.insertionSort fun a b => memberLe a b) := by
  have hflat := flattenAll_members hm
  have hcanon : canon us = us.reverse.insertionSort fun a b => memberLe a b := by
    rw [canon, hflat]
    exact dedup_nodup ((List.perm_insertionSort _ _).nodup_iff.mpr (List.nodup_reverse.mpr hn))
  have hg : (flattenAll us).any isGradual = false := by
    rw [hflat]
    exact not_gradual fun m h => hm m (List.mem_reverse.mp h)
  rw [← hcanon]
  have hsize : (canon us).length = us.length := by
    rw [hcanon, List.length_insertionSort, List.length_reverse]
  exact normalize_members hg (hsize ▸ h) (hsize ▸ hlen)

theorem pair_of_mem {l : List α} (hx : x ∈ l) (hy : y ∈ l) (hne : x ≠ y) :
    [x, y].Sublist l ∨ [y, x].Sublist l := by
  obtain ⟨s, t, rfl⟩ := List.append_of_mem hx
  rcases List.mem_append.mp hy with hy | hy
  · exact .inr ((List.singleton_sublist.mpr hy).append
      (List.singleton_sublist.mpr List.mem_cons_self))
  · refine .inl (List.sublist_append_of_sublist_right ?_)
    exact (List.singleton_sublist.mpr ((List.mem_cons.mp hy).resolve_left hne.symm)).cons_cons x

theorem not_both_orders {l : List α} (hn : l.Nodup) (h : [x, y].Sublist l)
    (h' : [y, x].Sublist l) : False := by
  induction l with
  | nil => cases h
  | cons a l ih =>
    obtain ⟨ha, hn⟩ := List.nodup_cons.mp hn
    cases h with
    | cons _ h =>
      cases h' with
      | cons _ h' => exact ih hn h h'
      | cons_cons _ h' => exact ha (h.subset (List.mem_cons_of_mem _ List.mem_cons_self))
    | cons_cons _ h =>
      cases h' with
      | cons _ h' => exact ha (h'.subset (List.mem_cons_of_mem _ List.mem_cons_self))
      | cons_cons _ h' => exact ha (h.subset List.mem_cons_self)

theorem separated_of_reverse {us : List CheckTy} (hn : us.Nodup)
    (h : (us.reverse.insertionSort fun a b => memberLe a b) = us) : Separated us := by
  intro x hx y hy hkey
  by_contra hne
  have hswap : ∀ {a b}, key a = key b → [a, b].Sublist us → False := fun {a b} hab hsub => by
    have hrev : [b, a].Sublist us.reverse := hsub.reverse
    have hle : memberLe b a = true := memberLe_iff.mpr hab.ge
    have hsort := List.pair_sublist_insertionSort (r := fun a b => memberLe a b) hle hrev
    rw [h] at hsort
    exact not_both_orders hn hsub hsort
  rcases pair_of_mem hx hy hne with hsub | hsub
  · exact hswap hkey hsub
  · exact hswap hkey.symm hsub

theorem UnionLaws.separated (h : UnionLaws ms) : Canonical ms := by
  cases hg : (flattenAll ms).any isGradual with
  | true => exact .inl hg
  | false =>
  by_cases hwide : unionWidthCap < (flattenAll ms).dedup.length
  · exact .inr (.inl hwide)
  refine .inr (.inr ?_)
  by_cases htwo : 2 ≤ (flattenAll ms).dedup.length
  · have hmem : ∀ m ∈ (flattenAll ms).dedup, m.isMember = true := fun m hm =>
      members_flat hg m (List.mem_dedup.mp hm)
    have hsame : SameMembers (flattenAll ms).dedup ms := fun m => by
      rw [flattenAll_members hmem, List.mem_reverse, List.mem_dedup]
    have hnorm := normalize_nodup hmem (List.nodup_dedup _) htwo (Nat.not_lt.mp hwide)
    generalize hus : ((flattenAll ms).dedup.reverse.insertionSort fun a b => memberLe a b) = us
      at hnorm
    have hperm : us.Perm (flattenAll ms).dedup :=
      hus ▸ (List.perm_insertionSort _ _).trans (List.reverse_perm _)
    have hn : us.Nodup := hperm.nodup_iff.mpr (List.nodup_dedup _)
    have hagain := h.idempotent
    rw [← h.canonical _ hsame, hnorm, normalize_nodup (fun m hm => hmem m (hperm.mem_iff.mp hm)) hn
      (hperm.length_eq ▸ htwo) (hperm.length_eq ▸ Nat.not_lt.mp hwide)] at hagain
    have hsep := separated_of_reverse hn (CheckTy.union.inj hagain)
    exact fun x hx y hy => hsep x (hperm.mem_iff.mpr (List.mem_dedup.mpr hx)) y
      (hperm.mem_iff.mpr (List.mem_dedup.mpr hy))
  · intro x hx y hy _
    by_contra hne
    have hpair : [x, y].Subperm (flattenAll ms).dedup :=
      List.subperm_of_subset (by simpa using hne) (by simp [hx, hy])
    exact htwo hpair.length_le

theorem unionLaws_iff : UnionLaws ms ↔ Canonical ms := ⟨UnionLaws.separated, Canonical.laws⟩

end CheckTy
end AScript.Check
