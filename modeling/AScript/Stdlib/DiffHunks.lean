import Mathlib.Data.List.Nodup
import AScript.Stdlib.Myers

/-! Interned lines and the hunks of a script (`stdlib/diff.rs`). -/

namespace AScript.Stdlib.Diff

open AScript.Lib AScript.Lib.Edit

section Intern

variable {dict dict' : List α}

def Names (dict : List α) (t : α) (id : Nat) : Prop := dict[id]? = some t

theorem Names.mono {id : Nat} (hp : dict <+: dict') (h : Names dict t id) : Names dict' t id := by
  obtain ⟨tail, rfl⟩ := hp
  have hlt := (List.getElem?_eq_some_iff.mp h).1
  rwa [Names, List.getElem?_append_left hlt]

variable [DecidableEq α]

theorem idOf_spec (hn : dict.Nodup) (t : α) : (idOf dict t).1.Nodup ∧ dict <+: (idOf dict t).1 ∧
    Names (idOf dict t).1 t (idOf dict t).2 := by
  unfold idOf
  split
  · next hmem =>
    refine ⟨hn, List.prefix_rfl, ?_⟩
    have hlt := List.idxOf_lt_length_iff.mpr hmem
    exact List.getElem?_eq_some_iff.mpr ⟨hlt, List.getElem_idxOf hlt⟩
  · next hmem =>
    refine ⟨?_, List.prefix_append _ _, by simp [Names]⟩
    rw [List.nodup_append]
    refine ⟨hn, List.pairwise_singleton _ _, fun x hx y hy => ?_⟩
    rintro rfl
    exact hmem (List.mem_singleton.mp hy ▸ hx)

theorem internFrom_spec (hn : dict.Nodup) (ts : List α) : (internFrom dict ts).1.Nodup ∧
    dict <+: (internFrom dict ts).1 ∧
      List.Forall₂ (Names (internFrom dict ts).1) ts (internFrom dict ts).2 := by
  induction ts generalizing dict with
  | nil => exact ⟨hn, List.prefix_rfl, .nil⟩
  | cons t ts ih =>
    obtain ⟨hn', hp, hid⟩ := idOf_spec hn t
    obtain ⟨hn'', hp', hids⟩ := ih hn'
    exact ⟨hn'', hp.trans hp', .cons (hid.mono hp') hids⟩

theorem intern_spec (a b : List α) : ∃ dict : List α, dict.Nodup ∧
    List.Forall₂ (Names dict) a (intern a b).1 ∧ List.Forall₂ (Names dict) b (intern a b).2 := by
  obtain ⟨hn, -, ha⟩ := internFrom_spec (List.nodup_nil (α := α)) a
  obtain ⟨hn', hp, hb⟩ := internFrom_spec hn b
  exact ⟨_, hn', ha.imp fun _ _ => Names.mono hp, hb⟩

theorem length_intern (a b : List α) : (intern a b).1.length = a.length ∧
    (intern a b).2.length = b.length := by
  obtain ⟨_, -, ha, hb⟩ := intern_spec a b
  exact ⟨ha.length_eq.symm, hb.length_eq.symm⟩

theorem Replays.of_intern {a b : List α} (h : Replays s (intern a b).1 (intern a b).2) :
    Replays s a b := by
  obtain ⟨dict, -, ha, hb⟩ := intern_spec a b
  exact h.of_forall₂ (fun x y z hx hy => Option.some.inj (hx.symm.trans hy)) ha hb

theorem Replays.intern {a b : List α} (h : Replays s a b) :
    Replays s (intern a b).1 (intern a b).2 := by
  obtain ⟨dict, hn, ha, hb⟩ := intern_spec a b
  refine h.of_forall₂ (R := fun id t => Names dict t id) (fun x y z hx hy => ?_) ha.flip hb.flip
  obtain ⟨hxl, hx⟩ := List.getElem?_eq_some_iff.mp hx
  obtain ⟨hyl, hy⟩ := List.getElem?_eq_some_iff.mp hy
  exact (List.Nodup.getElem_inj_iff hn).mp (hx.trans hy.symm)

omit [DecidableEq α] in
theorem names_at {as : List α} {ids : List Nat} (h : List.Forall₂ (Names dict) as ids) (i : Nat) :
    (∀ t, as[i]? = some t → ∃ id, ids[i]? = some id ∧ Names dict t id) ∧
      ∀ id, ids[i]? = some id → ∃ t, as[i]? = some t ∧ Names dict t id := by
  induction h generalizing i with
  | nil => exact ⟨nofun, nofun⟩
  | @cons t id as ids hname _ ih =>
    cases i with
    | zero =>
      refine ⟨fun t' ht => ?_, fun id' hid => ?_⟩
      · obtain rfl := Option.some.inj ht
        exact ⟨id, rfl, hname⟩
      · obtain rfl := Option.some.inj hid
        exact ⟨t, rfl, hname⟩
    | succ i => exact ih i

theorem match_intern {a b : List α} (x y : Int) :
    Match (intern a b).1 (intern a b).2 x y ↔ Match a b x y := by
  obtain ⟨dict, hn, ha, hb⟩ := intern_spec a b
  refine and_congr_right fun _ => and_congr_right fun _ => ⟨?_, ?_⟩
  · rintro ⟨id, hx, hy⟩
    obtain ⟨t, ht, hname⟩ := (names_at ha _).2 id hx
    obtain ⟨t', ht', hname'⟩ := (names_at hb _).2 id hy
    obtain rfl : t = t' := Option.some.inj (hname.symm.trans hname')
    exact ⟨t, ht, ht'⟩
  · rintro ⟨t, hx, hy⟩
    obtain ⟨i, hi, hname⟩ := (names_at ha _).1 t hx
    obtain ⟨j, hj, hname'⟩ := (names_at hb _).1 t hy
    obtain ⟨hil, hit⟩ := List.getElem?_eq_some_iff.mp hname
    obtain ⟨hjl, hjt⟩ := List.getElem?_eq_some_iff.mp hname'
    obtain rfl : i = j := (List.Nodup.getElem_inj_iff hn).mp (hit.trans hjt.symm)
    exact ⟨i, hi, hj⟩

end Intern

variable {a b : List α}

/-- What a hunk has of either side. -/
def Hunk.aLines (h : Hunk α) : List α := if h.tag = .insert then [] else h.lines

def Hunk.bLines (h : Hunk α) : List α := if h.tag = .delete then [] else h.lines

def range (l : List α) (i j : Nat) : List α := (l.drop i).take (j - i)

/-- The hunks cover both lists from `ai` and `bi` on, each where the one before ends. -/
inductive Tiles (a b : List α) : Nat → Nat → List (Hunk α) → Prop
  | nil : Tiles a b a.length b.length []
  | cons : h.aStart ≤ h.aEnd → h.bStart ≤ h.bEnd → h.aLines = range a h.aStart h.aEnd →
      h.bLines = range b h.bStart h.bEnd → Tiles a b h.aEnd h.bEnd hs →
      Tiles a b h.aStart h.bStart (h :: hs)

theorem range_append_drop (l : List α) (h : i ≤ j) : range l i j ++ l.drop j = l.drop i := by
  have hdrop : l.drop j = (l.drop i).drop (j - i) := by rw [List.drop_drop, Nat.add_sub_cancel' h]
  rw [range, hdrop, List.take_append_drop]

theorem Tiles.concat {hs : List (Hunk α)} (h : Tiles a b i j hs) :
    hs.flatMap Hunk.aLines = a.drop i ∧ hs.flatMap Hunk.bLines = b.drop j := by
  induction h with
  | nil => simp
  | cons ha hb hal hbl _ ih =>
    rw [List.flatMap_cons, List.flatMap_cons, ih.1, ih.2, hal, hbl, range_append_drop _ ha,
      range_append_drop _ hb]
    exact ⟨rfl, rfl⟩

structure Run (a b : List α) (tag : Edit) (ai bi : Nat) (rest : List Edit) (ai' bi' : Nat)
    (lines : List α) : Prop where
  replays : Replays rest (a.drop ai') (b.drop bi')
  aLe : ai ≤ ai' ∧ ai' ≤ a.length
  bLe : bi ≤ bi' ∧ bi' ≤ b.length
  aLines : (if tag = .insert then [] else lines) = range a ai ai'
  bLines : (if tag = .delete then [] else lines) = range b bi bi'

theorem range_self (l : List α) (i : Nat) : range l i i = [] := by
  rw [range, Nat.sub_self, List.take_zero]

theorem range_cons {l : List α} (h : l[i]? = some c) (hj : i < j) :
    range l i j = c :: range l (i + 1) j := by
  obtain ⟨hlt, rfl⟩ := List.getElem?_eq_some_iff.mp h
  rw [range, List.drop_eq_getElem_cons hlt, show j - i = (j - (i + 1)) + 1 by omega,
    List.take_succ_cons, range]

theorem getElem?_of_drop {l : List α} (h : l.drop i = c :: cs) :
    l[i]? = some c ∧ l.drop (i + 1) = cs ∧ i < l.length := by
  have hc : l[i]? = some c := by rw [← List.head?_drop, h]; rfl
  refine ⟨hc, ?_, (List.getElem?_eq_some_iff.mp hc).1⟩
  rw [← List.drop_drop, h]
  rfl

theorem takeRun_spec (tag : Edit) {script : List Edit} (ai bi : Nat) (acc : List α)
    (h : Replays script (a.drop ai) (b.drop bi)) (ha : ai ≤ a.length) (hb : bi ≤ b.length) :
    ∃ rest ai' bi' lines, takeRun a b tag script ai bi acc = some (rest, ai', bi', acc ++ lines) ∧
      Run a b tag ai bi rest ai' bi' lines ∧ rest.length ≤ script.length ∧
        (script.head? = some tag → rest.length < script.length) := by
  induction script generalizing ai bi acc with
  | nil =>
    refine ⟨[], ai, bi, [], by rw [takeRun, List.append_nil], ?_, Nat.le_refl _, nofun⟩
    exact ⟨h, ⟨Nat.le_refl _, ha⟩, ⟨Nat.le_refl _, hb⟩, by simp [range_self], by simp [range_self]⟩
  | cons t script ih =>
    by_cases ht : t = tag
    · subst ht
      generalize hda : a.drop ai = da at h
      generalize hdb : b.drop bi = db at h
      cases h with
      | @equal _ _ _ c h =>
        obtain ⟨hca, hra, hla⟩ := getElem?_of_drop hda
        obtain ⟨hcb, hrb, hlb⟩ := getElem?_of_drop hdb
        obtain ⟨rest, ai', bi', lines, hrun, ⟨hrep, ⟨h₁, h₂⟩, ⟨h₃, h₄⟩, hal, hbl⟩, hlen, -⟩ :=
          ih (ai + 1) (bi + 1) (acc ++ [c]) (by rwa [hra, hrb]) hla hlb
        refine ⟨rest, ai', bi', c :: lines, ?_, ⟨hrep, ⟨by omega, h₂⟩, ⟨by omega, h₄⟩, ?_, ?_⟩,
          Nat.le_succ_of_le hlen, fun _ => Nat.lt_succ_of_le hlen⟩
        · rw [takeRun, if_pos rfl, takeLine, hca]
          change takeRun a b .equal script (ai + 1) (bi + 1) _ = _
          rw [hrun, List.append_assoc]
          rfl
        · rw [range_cons hca (by omega), ← hal]
          rfl
        · rw [range_cons hcb (by omega), ← hbl]
          rfl
      | @delete _ _ _ c h =>
        obtain ⟨hca, hra, hla⟩ := getElem?_of_drop hda
        obtain ⟨rest, ai', bi', lines, hrun, ⟨hrep, ⟨h₁, h₂⟩, hb', hal, hbl⟩, hlen, -⟩ :=
          ih (ai + 1) bi (acc ++ [c]) (by rwa [hra, hdb]) hla hb
        refine ⟨rest, ai', bi', c :: lines, ?_, ⟨hrep, ⟨by omega, h₂⟩, hb', ?_, hbl⟩,
          Nat.le_succ_of_le hlen, fun _ => Nat.lt_succ_of_le hlen⟩
        · rw [takeRun, if_pos rfl, takeLine, hca]
          change takeRun a b .delete script (ai + 1) bi _ = _
          rw [hrun, List.append_assoc]
          rfl
        · rw [range_cons hca (by omega), ← hal]
          rfl
      | @insert _ _ _ c h =>
        obtain ⟨hcb, hrb, hlb⟩ := getElem?_of_drop hdb
        obtain ⟨rest, ai', bi', lines, hrun, ⟨hrep, ha', ⟨h₃, h₄⟩, hal, hbl⟩, hlen, -⟩ :=
          ih ai (bi + 1) (acc ++ [c]) (by rwa [hda, hrb]) ha hlb
        refine ⟨rest, ai', bi', c :: lines, ?_, ⟨hrep, ha', ⟨by omega, h₄⟩, hal, ?_⟩,
          Nat.le_succ_of_le hlen, fun _ => Nat.lt_succ_of_le hlen⟩
        · rw [takeRun, if_pos rfl, takeLine, hcb]
          change takeRun a b .insert script ai (bi + 1) _ = _
          rw [hrun, List.append_assoc]
          rfl
        · rw [range_cons hcb (by omega), ← hbl]
          rfl
    · refine ⟨t :: script, ai, bi, [], ?_, ?_, Nat.le_refl _, fun h => ?_⟩
      · rw [takeRun, if_neg ht, List.append_nil]
      · exact ⟨h, ⟨Nat.le_refl _, ha⟩, ⟨Nat.le_refl _, hb⟩, by simp [range_self],
          by simp [range_self]⟩
      · exact absurd (Option.some.inj h) ht

theorem groupFrom_end (h : Replays [] (a.drop ai) (b.drop bi)) (ha : ai ≤ a.length)
    (hb : bi ≤ b.length) : Tiles a b ai bi [] := by
  generalize hda : a.drop ai = da at h
  generalize hdb : b.drop bi = db at h
  cases h
  obtain rfl : ai = a.length := Nat.le_antisymm ha (List.drop_eq_nil_iff.mp hda)
  obtain rfl : bi = b.length := Nat.le_antisymm hb (List.drop_eq_nil_iff.mp hdb)
  exact .nil

theorem groupFrom_spec {fuel ai bi : Nat} {script : List Edit} (hf : script.length ≤ fuel)
    (h : Replays script (a.drop ai) (b.drop bi)) (ha : ai ≤ a.length) (hb : bi ≤ b.length) :
    ∃ hs, groupFrom a b fuel script ai bi = some hs ∧ Tiles a b ai bi hs := by
  induction fuel generalizing script ai bi with
  | zero =>
    obtain rfl := List.length_eq_zero_iff.mp (Nat.le_zero.mp hf)
    exact ⟨[], rfl, groupFrom_end h ha hb⟩
  | succ fuel ih =>
    cases script with
    | nil => exact ⟨[], rfl, groupFrom_end h ha hb⟩
    | cons tag script =>
      obtain ⟨rest, ai', bi', lines, hrun, hr, -, hlen⟩ := takeRun_spec tag ai bi [] h
        ha hb
      have hlen := hlen rfl
      obtain ⟨hs, hgroup, htiles⟩ := ih (by simp at hf hlen; omega) hr.replays hr.aLe.2 hr.bLe.2
      refine ⟨{ tag, aStart := ai, aEnd := ai', bStart := bi, bEnd := bi', lines } :: hs, ?_, ?_⟩
      · rw [groupFrom, hrun]
        change (groupFrom a b fuel rest ai' bi' >>= _) = _
        rw [hgroup]
        rfl
      · exact Tiles.cons (h := ⟨tag, ai, ai', bi, bi', lines⟩) hr.aLe.1 hr.bLe.1 hr.aLines
          hr.bLines htiles

theorem groupHunks_spec {script : List Edit} (h : Replays script a b) :
    ∃ hs, groupHunks script a b = some hs ∧ Tiles a b 0 0 hs :=
  groupFrom_spec (Nat.le_refl _) h (Nat.zero_le _) (Nat.zero_le _)

/-- No access is out of range, the script is a shortest one and keeps a longest common
subsequence, and the hunks of interned lists cover both. -/
theorem myers_shortest (a b : List Nat) (budget : Nat) (h : a.length + b.length ≤ budget) :
    ∃ s, myers a b budget = some (.ok s) ∧ Replays s a b ∧
      (∀ s', Replays s' a b → cost s ≤ cost s') ∧
      (∃ cs : List Nat, (cs.Sublist a ∧ cs.Sublist b) ∧
        (∀ cs' : List Nat, cs'.Sublist a → cs'.Sublist b → cs'.length ≤ cs.length) ∧
          cost s = a.length + b.length - 2 * cs.length) ∧
      ∀ (α : Type) [DecidableEq α] (as bs : List α), intern as bs = (a, b) →
        ∃ hs, groupHunks s as bs = some hs ∧ Tiles as bs 0 0 hs ∧
          hs.flatMap Hunk.aLines = as ∧ hs.flatMap Hunk.bLines = bs := by
  obtain ⟨s, hs, hrep, hmin, -⟩ := myers_spec h
  obtain ⟨cs, hca, hcb, hcost⟩ := hrep.common
  refine ⟨s, hs, hrep, hmin, ⟨cs, ⟨hca, hcb⟩, fun cs' ha hb => ?_, by omega⟩, ?_⟩
  · obtain ⟨s', hs', hcost'⟩ := exists_replays ha hb
    have := hmin s' hs'
    omega
  · intro α _ as bs hi
    have hlines : Replays s as bs := Replays.of_intern (by rwa [hi])
    obtain ⟨hs, hgroup, htiles⟩ := groupHunks_spec hlines
    exact ⟨hs, hgroup, htiles, htiles.concat⟩

theorem myers_shortest_pair : [1, 2].length + [2].length ≤ 3 ∧
    ∃ s, myers [1, 2] [2] 3 = some (.ok s) ∧ Replays s [1, 2] [2] ∧
      ∀ s', Replays s' [1, 2] [2] → cost s ≤ cost s' := by
  obtain ⟨s, hs, hrep, hmin, -⟩ := myers_shortest [1, 2] [2] 3 (by decide)
  exact ⟨by decide, s, hs, hrep, hmin⟩

end AScript.Stdlib.Diff
