import Mathlib.Data.List.Chain
import AScript.Stdlib.Unified

/-! When a unified diff applies (`stdlib/diff.rs`). -/

namespace AScript.Stdlib.Diff

open AScript.Lib AScript.Lib.Edit

theorem concat_fileLines (s : Text) : concat (fileLines s) = s := by
  induction s with
  | nil => rfl
  | cons c s ih =>
    rw [fileLines]
    split
    · next hc =>
      subst hc
      change '\n' :: concat (fileLines s) = _
      rw [ih]
    · cases hs : fileLines s with
      | nil =>
        rw [hs] at ih
        change c :: [] = c :: s
        rw [← ih]
        rfl
      | cons l ls =>
        rw [hs] at ih
        obtain ⟨l, newline⟩ := l
        change concat ((c :: l, newline) :: ls) = c :: s
        rw [← ih]
        cases newline <;> rfl

def terminate (final : Bool) : List Text → List Piece
  | [] => []
  | [l] => [(l, final)]
  | l :: l' :: ls => (l, true) :: terminate final (l' :: ls)

theorem terminate_modifyHead (final : Bool) (c : Char) (ls : List Text) (h : ls ≠ []) :
    terminate final (ls.modifyHead (c :: ·)) =
      consLine c (terminate final ls) := by
  match ls with
  | [_] => rfl
  | _ :: _ :: _ => rfl

theorem terminate_cons (final : Bool) (l : Text) {ls : List Text} (h : ls ≠ []) :
    terminate final (l :: ls) = (l, true) :: terminate final ls := by
  match ls with
  | _ :: _ => rfl

theorem splitOn_ne_nil (s : Text) : s.splitOn '\n' ≠ [] := by
  cases s with
  | nil => simp
  | cons c s =>
    rw [List.splitOn_cons_eq_if_modifyHead]
    split
    · exact List.cons_ne_nil _ _
    · simp

theorem fileLines_terminated (s : Text) :
    fileLines (s ++ ['\n']) = terminate true (s.splitOn '\n') := by
  induction s with
  | nil => rfl
  | cons c s ih =>
    rw [List.cons_append, fileLines, ih, List.splitOn_cons_eq_if_modifyHead]
    by_cases hc : c = '\n'
    · rw [if_pos hc, if_pos (by simpa using hc), terminate_cons _ _ (splitOn_ne_nil s)]
    · rw [if_neg hc, if_neg (by simpa using hc), terminate_modifyHead _ _ _ (splitOn_ne_nil s)]

theorem fileLines_unterminated (s : Text) (hne : s ≠ []) (h : s.getLast? ≠ some '\n') :
    fileLines s = terminate false (s.splitOn '\n') := by
  induction s with
  | nil => exact absurd rfl hne
  | cons c s ih =>
    cases s with
    | nil =>
      have hc : c ≠ '\n' := fun hc => h (by rw [hc]; rfl)
      rw [fileLines, if_neg hc, List.splitOn_cons_eq_if_modifyHead, if_neg (by simpa using hc)]
      rfl
    | cons d s =>
      have ih := ih (List.cons_ne_nil _ _) (by rwa [List.getLast?_cons_cons] at h)
      rw [fileLines, ih, List.splitOn_cons_eq_if_modifyHead c]
      by_cases hc : c = '\n'
      · rw [if_pos hc, if_pos (by simpa using hc), terminate_cons _ _ (splitOn_ne_nil _)]
      · rw [if_neg hc, if_neg (by simpa using hc), terminate_modifyHead _ _ _ (splitOn_ne_nil _)]

theorem terminate_splitLines (s : Text) :
    terminate (splitLines s).finalNewline (splitLines s).lines = fileLines s := by
  unfold splitLines
  split
  · next hs => rw [hs]; rfl
  · next hs =>
    by_cases h : s.getLast? = some '\n'
    · have hs' : s = s.dropLast ++ ['\n'] := by
        rw [List.getLast?_eq_some_getLast hs] at h
        rw [← Option.some.inj h, List.dropLast_concat_getLast]
      simp only [h, beq_self_eq_true, if_true]
      rw [← fileLines_terminated, ← hs']
    · have h' : (s.getLast? == some '\n') = false := by simpa using h
      simp only [h', Bool.false_eq_true, if_false]
      rw [fileLines_unterminated s hs h]

theorem tokens_terminate (l : Lined) :
    newlineAwareTokens l = (terminate l.finalNewline l.lines).map tokenOf := by
  obtain ⟨lines, final⟩ := l
  induction lines with
  | nil => cases final <;> rfl
  | cons t ts ih =>
    cases ts with
    | nil => cases final <;> rfl
    | cons t' ts =>
      rw [terminate_cons _ _ (List.cons_ne_nil _ _), List.map_cons, ← ih]
      cases final with
      | true => rfl
      | false =>
        simp only [newlineAwareTokens, List.getLast?_cons_cons, List.dropLast_cons_cons]
        cases hl : (t' :: ts).getLast? with
        | none => rw [List.getLast?_eq_none_iff] at hl; cases hl
        | some last => rfl

theorem tokens_splitLines (s : Text) :
    newlineAwareTokens (splitLines s) = (fileLines s).map tokenOf := by
  rw [tokens_terminate, terminate_splitLines]

theorem getElem?_terminate (final : Bool) (ls : List Text) (i : Nat) :
    (terminate final ls)[i]? = ls[i]?.map fun l =>
      (l, !(decide (i = ls.length - 1) && !final)) := by
  induction ls generalizing i with
  | nil => rfl
  | cons l ls ih =>
    cases ls with
    | nil => cases i <;> cases final <;> rfl
    | cons l' ls =>
      rw [terminate]
      cases i with
      | zero => simp
      | succ i =>
        rw [List.getElem?_cons_succ, ih, List.getElem?_cons_succ]
        simp

theorem length_terminate (final : Bool) (ls : List Text) :
    (terminate final ls).length = ls.length := by
  induction ls with
  | nil => rfl
  | cons l ls ih =>
    cases ls with
    | nil => rfl
    | cons l' ls => rw [terminate, List.length_cons, ih]; rfl

section Sides

variable {ls ls' : List (Edit × α)} {p : α}

@[simp] theorem oldSide_equal : oldSide ((.equal, p) :: ls) = p :: oldSide ls := rfl

@[simp] theorem oldSide_delete : oldSide ((.delete, p) :: ls) = p :: oldSide ls := rfl

@[simp] theorem oldSide_insert : oldSide ((.insert, p) :: ls) = oldSide ls := rfl

@[simp] theorem newSide_equal : newSide ((.equal, p) :: ls) = p :: newSide ls := rfl

@[simp] theorem newSide_delete : newSide ((.delete, p) :: ls) = newSide ls := rfl

@[simp] theorem newSide_insert : newSide ((.insert, p) :: ls) = p :: newSide ls := rfl

@[simp] theorem oldSide_append : oldSide (ls ++ ls') = oldSide ls ++ oldSide ls' :=
  List.filterMap_append

@[simp] theorem newSide_append : newSide (ls ++ ls') = newSide ls ++ newSide ls' :=
  List.filterMap_append

theorem applyBody_spec [DecidableEq α] (ls : List (Edit × α)) (rest : List α) :
    applyBody ls (oldSide ls ++ rest) = some (newSide ls, rest) := by
  induction ls with
  | nil => rfl
  | cons l ls ih =>
    obtain ⟨op, p⟩ := l
    cases op with
    | equal =>
      rw [oldSide_equal, List.cons_append, applyBody, if_pos rfl, ih]
      rfl
    | delete => rw [oldSide_delete, List.cons_append, applyBody, if_pos rfl, ih, newSide_delete]
    | insert =>
      rw [oldSide_insert, applyBody, ih]
      rfl

theorem sides_kept (h : ∀ l ∈ ls, l.1 = .equal) : oldSide ls = newSide ls ∧
    (oldSide ls).length = ls.length := by
  induction ls with
  | nil => exact ⟨rfl, rfl⟩
  | cons l ls ih =>
    obtain ⟨op, p⟩ := l
    obtain rfl : op = .equal := h _ (.head _)
    obtain ⟨heq, hlen⟩ := ih fun l hl => h l (.tail _ hl)
    simp [heq, ← hlen]

theorem oldSide_eq_nil : oldSide ls = [] ↔ ∀ l ∈ ls, l.1 = .insert := by
  rw [oldSide, List.filterMap_eq_nil_iff]
  refine forall₂_congr fun l _ => ?_
  obtain ⟨op, p⟩ := l
  cases op <;> simp [oldLine]

end Sides

inductive Numbered : (ai bi : Nat) → List Rec → Prop
  | nil : Numbered ai bi []
  | equal : Numbered (ai + 1) (bi + 1) recs →
      Numbered ai bi (⟨.equal, text, some ai, some bi⟩ :: recs)
  | delete : Numbered (ai + 1) bi recs → Numbered ai bi (⟨.delete, text, some ai, none⟩ :: recs)
  | insert : Numbered ai (bi + 1) recs → Numbered ai bi (⟨.insert, text, none, some bi⟩ :: recs)

section Render

variable {a b : Lined}

abbrev Lined.pieces (l : Lined) : List Piece := terminate l.finalNewline l.lines

theorem piece_at {l : Lined} {i : Nat} {c : Piece} (h : l.pieces[i]? = some c) :
    l.lines[i]? = some c.1 ∧
      (!(!l.lines.isEmpty && some i == some (l.lines.length - 1) && !l.finalNewline)) = c.2 := by
  rw [Lined.pieces, getElem?_terminate] at h
  cases hl : l.lines[i]? with
  | none => rw [hl] at h; cases h
  | some t =>
    rw [hl] at h
    obtain rfl := Option.some.inj h
    have hne : l.lines.isEmpty = false := by
      cases hlines : l.lines with
      | nil => rw [hlines] at hl; cases hl
      | cons => rfl
    refine ⟨rfl, ?_⟩
    rw [hne, Bool.not_false, Bool.true_and]
    by_cases hi : i = l.lines.length - 1 <;> simp [hi]

theorem recsFrom_spec {script : List Edit} {ai bi : Nat}
    (h : Replays script (a.pieces.drop ai) (b.pieces.drop bi)) :
    ∃ recs, recsFrom a b script ai bi = some recs ∧ Numbered ai bi recs ∧
      recs.map Rec.op = script ∧ oldSide (recs.map (Rec.line a b)) = a.pieces.drop ai ∧
        newSide (recs.map (Rec.line a b)) = b.pieces.drop bi := by
  induction script generalizing ai bi with
  | nil =>
    generalize a.pieces.drop ai = da at h
    generalize b.pieces.drop bi = db at h
    cases h
    exact ⟨[], rfl, .nil, rfl, rfl, rfl⟩
  | cons t script ih =>
    generalize hda : a.pieces.drop ai = da at h
    generalize hdb : b.pieces.drop bi = db at h
    cases h with
    | @equal _ _ _ c h =>
      obtain ⟨hca, hra, -⟩ := getElem?_of_drop hda
      obtain ⟨hcb, hrb, -⟩ := getElem?_of_drop hdb
      obtain ⟨hta, hna⟩ := piece_at hca
      obtain ⟨-, hnb⟩ := piece_at hcb
      have hrest : Replays script (a.pieces.drop (ai + 1)) (b.pieces.drop (bi + 1)) := by
        rwa [hra, hrb]
      obtain ⟨recs, hrecs, hnum, hops, hold, hnew⟩ := ih hrest
      have hline : Rec.line a b ⟨.equal, c.1, some ai, some bi⟩ = (.equal, c) := by
        refine Prod.ext rfl (Prod.ext rfl ?_)
        change (!(_ || _)) = c.2
        rw [Bool.not_or, hna, hnb, Bool.and_self]
      refine ⟨⟨.equal, c.1, some ai, some bi⟩ :: recs, ?_, .equal hnum, ?_, ?_, ?_⟩
      · rw [recsFrom, hta, hrecs]
        rfl
      · rw [List.map_cons, hops]
      · rw [List.map_cons, hline, oldSide_equal, hold, hra]
      · rw [List.map_cons, hline, newSide_equal, hnew, hrb]
    | @delete _ _ _ c h =>
      obtain ⟨hca, hra, -⟩ := getElem?_of_drop hda
      obtain ⟨hta, hna⟩ := piece_at hca
      have hrest : Replays script (a.pieces.drop (ai + 1)) (b.pieces.drop bi) := by
        rwa [hra, hdb]
      obtain ⟨recs, hrecs, hnum, hops, hold, hnew⟩ := ih hrest
      have hline : Rec.line a b ⟨.delete, c.1, some ai, none⟩ = (.delete, c) :=
        Prod.ext rfl (Prod.ext rfl hna)
      refine ⟨⟨.delete, c.1, some ai, none⟩ :: recs, ?_, .delete hnum, ?_, ?_, ?_⟩
      · rw [recsFrom, hta, hrecs]
        rfl
      · rw [List.map_cons, hops]
      · rw [List.map_cons, hline, oldSide_delete, hold, hra]
      · rw [List.map_cons, hline, newSide_delete, hnew, hdb]
    | @insert _ _ _ c h =>
      obtain ⟨hcb, hrb, -⟩ := getElem?_of_drop hdb
      obtain ⟨htb, hnb⟩ := piece_at hcb
      have hrest : Replays script (a.pieces.drop ai) (b.pieces.drop (bi + 1)) := by
        rwa [hda, hrb]
      obtain ⟨recs, hrecs, hnum, hops, hold, hnew⟩ := ih hrest
      have hline : Rec.line a b ⟨.insert, c.1, none, some bi⟩ = (.insert, c) :=
        Prod.ext rfl (Prod.ext rfl hnb)
      refine ⟨⟨.insert, c.1, none, some bi⟩ :: recs, ?_, .insert hnum, ?_, ?_, ?_⟩
      · rw [recsFrom, htb, hrecs]
        rfl
      · rw [List.map_cons, hops]
      · rw [List.map_cons, hline, oldSide_insert, hold, hda]
      · rw [List.map_cons, hline, newSide_insert, hnew, hrb]

theorem Numbered.append {xs ys : List Rec} (h : Numbered ai bi (xs ++ ys)) : Numbered ai bi xs ∧
    Numbered (ai + (oldSide (xs.map (Rec.line a b))).length)
      (bi + (newSide (xs.map (Rec.line a b))).length) ys := by
  induction xs generalizing ai bi with
  | nil => exact ⟨.nil, h⟩
  | cons x xs ih =>
    rw [List.cons_append] at h
    cases h with
    | equal h =>
      obtain ⟨hxs, hys⟩ := ih h
      refine ⟨.equal hxs, ?_⟩
      rw [List.map_cons, Rec.line, oldSide_equal, newSide_equal, List.length_cons,
        List.length_cons, Nat.add_comm _ 1, Nat.add_comm _ 1, ← Nat.add_assoc, ← Nat.add_assoc]
      exact hys
    | delete h =>
      obtain ⟨hxs, hys⟩ := ih h
      refine ⟨.delete hxs, ?_⟩
      rw [List.map_cons, Rec.line, oldSide_delete, newSide_delete, List.length_cons,
        Nat.add_comm _ 1, ← Nat.add_assoc]
      exact hys
    | insert h =>
      obtain ⟨hxs, hys⟩ := ih h
      refine ⟨.insert hxs, ?_⟩
      rw [List.map_cons, Rec.line, oldSide_insert, newSide_insert, List.length_cons,
        Nat.add_comm _ 1, ← Nat.add_assoc]
      exact hys

theorem Numbered.firstA (h : Numbered ai bi seg) :
    (seg.filter (·.op ≠ .insert)).length = (oldSide (seg.map (Rec.line a b))).length ∧
      (seg.filter (·.op ≠ .insert)).findSome? (·.aIdx) =
        if (oldSide (seg.map (Rec.line a b))).length = 0 then none else some ai := by
  induction h with
  | nil => exact ⟨rfl, rfl⟩
  | equal h ih =>
    refine ⟨?_, rfl⟩
    rw [List.map_cons, Rec.line, oldSide_equal, List.length_cons, ← ih.1]
    rfl
  | delete h ih =>
    refine ⟨?_, rfl⟩
    rw [List.map_cons, Rec.line, oldSide_delete, List.length_cons, ← ih.1]
    rfl
  | insert h ih => exact ih

theorem Numbered.firstB (h : Numbered ai bi seg) :
    (seg.filter (·.op ≠ .delete)).length = (newSide (seg.map (Rec.line a b))).length ∧
      (seg.filter (·.op ≠ .delete)).findSome? (·.bIdx) =
        if (newSide (seg.map (Rec.line a b))).length = 0 then none else some bi := by
  induction h with
  | nil => exact ⟨rfl, rfl⟩
  | equal h ih =>
    refine ⟨?_, rfl⟩
    rw [List.map_cons, Rec.line, newSide_equal, List.length_cons, ← ih.1]
    rfl
  | delete h ih => exact ih
  | insert h ih =>
    refine ⟨?_, rfl⟩
    rw [List.map_cons, Rec.line, newSide_insert, List.length_cons, ← ih.1]
    rfl

theorem before_rangeField {n i : Nat} {idx : Rec → Option Nat} {seg : List Rec}
    (hhead : n = 0 → seg.head?.bind idx = none) :
    let field := rangeField (startOf (if n = 0 then none else some i) idx seg) n
    field.2 = n ∧ before field = if n = 0 then 0 else i := by
  by_cases hn : n = 0
  · rw [if_pos hn, startOf, hhead hn]
    subst hn
    exact ⟨rfl, rfl⟩
  · rw [if_neg hn, if_neg hn, startOf, rangeField, if_neg hn]
    exact ⟨rfl, if_neg hn⟩

variable (a b) in
theorem hunkOf_a (h : Numbered ai bi seg) :
    (hunkOf a b seg).a.2 = (oldSide (hunkOf a b seg).body).length ∧
      before (hunkOf a b seg).a =
        if (oldSide (hunkOf a b seg).body).length = 0 then 0 else ai := by
  obtain ⟨hlen, hfirst⟩ := h.firstA (a := a) (b := b)
  change (rangeField _ _).2 = _ ∧ before (rangeField _ _) = _
  rw [hlen, hfirst]
  refine before_rangeField fun h0 => ?_
  cases h with
  | nil => rfl
  | equal => exact nomatch h0
  | delete => exact nomatch h0
  | insert => rfl

variable (a b) in
theorem hunkOf_b (h : Numbered ai bi seg) :
    (hunkOf a b seg).b.2 = (newSide (hunkOf a b seg).body).length ∧
      before (hunkOf a b seg).b =
        if (newSide (hunkOf a b seg).body).length = 0 then 0 else bi := by
  obtain ⟨hlen, hfirst⟩ := h.firstB (a := a) (b := b)
  change (rangeField _ _).2 = _ ∧ before (rangeField _ _) = _
  rw [hlen, hfirst]
  refine before_rangeField fun h0 => ?_
  cases h with
  | nil => rfl
  | equal => exact nomatch h0
  | delete => rfl
  | insert => exact nomatch h0

inductive Splits {α : Type} : List (List α) → List (α × Bool) → Prop
  | gap : (∀ x ∈ gap, x.2 = false) → Splits [] gap
  | run : (∀ x ∈ gap, x.2 = false) → seg ≠ [] → (∀ x ∈ rest.head?, x.2 = false) →
      Splits segs rest → Splits (seg :: segs) (gap ++ (seg.map (·, true) ++ rest))

theorem Splits.skip {α : Type} {segs : List (List α)} {recs : List (α × Bool)}
    (h : Splits segs recs) (r : α) :
    Splits segs ((r, false) :: recs) := by
  cases h with
  | gap h => exact .gap (List.forall_mem_cons.mpr ⟨rfl, h⟩)
  | run h hne hr hs => exact .run (List.forall_mem_cons.mpr ⟨rfl, h⟩) hne hr hs

theorem segmentsFrom_splits {α : Type} (seg : List α) (recs : List (α × Bool)) :
    Splits (segmentsFrom seg recs) (seg.map (·, true) ++ recs) := by
  induction recs generalizing seg with
  | nil =>
    cases seg with
    | nil => exact .gap nofun
    | cons r seg => exact @Splits.run _ [] _ _ _ nofun (List.cons_ne_nil _ _) nofun (.gap nofun)
  | cons r recs ih =>
    obtain ⟨r, marked⟩ := r
    cases marked with
    | true =>
      have ih := ih (seg ++ [r])
      rwa [List.map_append, List.append_assoc] at ih
    | false =>
      cases seg with
      | nil => exact (ih []).skip r
      | cons s seg =>
        refine @Splits.run _ [] _ _ _ nofun (List.cons_ne_nil _ _) ?_ ((ih []).skip r)
        rintro x ⟨⟩
        rfl

variable (a b) in
theorem sides_gap {gap : List Rec} (hgap : ∀ r ∈ gap, r.op = .equal) :
    oldSide (gap.map (Rec.line a b)) = newSide (gap.map (Rec.line a b)) ∧
      (oldSide (gap.map (Rec.line a b))).length = gap.length := by
  rw [← List.length_map (Rec.line a b)]
  refine sides_kept fun l hl => ?_
  obtain ⟨r, hr, rfl⟩ := List.mem_map.mp hl
  exact hgap r hr

theorem before_run {gap seg : List Rec} (hgap : ∀ r ∈ gap, r.op = .equal)
    (hn : Numbered ai bi (gap ++ seg)) (hstart : ai = 0 ∧ bi = 0 ∨ gap ≠ [])
    (h : gap = [] ∨ ∃ s ∈ seg, s.op ≠ .insert) :
    before (hunkOf a b seg).a = ai + gap.length := by
  have hkept := sides_gap a b hgap
  obtain ⟨-, hseg⟩ := hn.append (a := a) (b := b)
  rw [← hkept.1, hkept.2] at hseg
  rw [(hunkOf_a a b hseg).2]
  rcases h with rfl | ⟨s, hs, hop⟩
  · obtain ⟨rfl, rfl⟩ := hstart.resolve_right (fun h => h rfl)
    simp
  · have hold : oldSide (hunkOf a b seg).body ≠ [] := fun hnil =>
      hop (oldSide_eq_nil.mp hnil (Rec.line a b s) (List.mem_map_of_mem hs))
    rw [if_neg (mt List.length_eq_zero_iff.mp hold)]

section Runs

variable {segs : List (List Rec)} {recs : List (Rec × Bool)}

def Kept (recs : List (Rec × Bool)) : Prop := ∀ x ∈ recs, x.2 = false → x.1.op = .equal

def Apart (ai bi : Nat) (recs : List (Rec × Bool)) : Prop :=
  ai = 0 ∧ bi = 0 ∨ ∀ x ∈ recs.head?, x.2 = false

theorem map_parts (gap : List (Rec × Bool)) (seg : List Rec) (rest : List (Rec × Bool)) :
    (gap ++ (seg.map (·, true) ++ rest)).map Prod.fst =
      gap.map Prod.fst ++ (seg ++ rest.map Prod.fst) := by
  simp [Function.comp_def]

structure RunParts (a b : Lined) (ai bi : Nat) (gap : List (Rec × Bool)) (seg : List Rec)
    (rest : List (Rec × Bool)) : Prop where
  keeps : ∀ r ∈ gap.map Prod.fst, r.op = .equal
  numbered : Numbered ai bi (gap.map Prod.fst ++ seg)
  start : ai = 0 ∧ bi = 0 ∨ gap.map Prod.fst ≠ []
  next : Numbered (ai + (oldSide ((gap.map Prod.fst ++ seg).map (Rec.line a b))).length)
    (bi + (newSide ((gap.map Prod.fst ++ seg).map (Rec.line a b))).length) (rest.map Prod.fst)
  kept : Kept rest

variable (a b) in
theorem runParts {gap : List (Rec × Bool)} {seg : List Rec} {rest : List (Rec × Bool)}
    (hgap : ∀ x ∈ gap, x.2 = false) (hne : seg ≠ [])
    (hn : Numbered ai bi ((gap ++ (seg.map (·, true) ++ rest)).map Prod.fst))
    (hk : Kept (gap ++ (seg.map (·, true) ++ rest)))
    (hs : Apart ai bi (gap ++ (seg.map (·, true) ++ rest))) :
    RunParts a b ai bi gap seg rest := by
  rw [map_parts, ← List.append_assoc] at hn
  obtain ⟨hn₁, hn₂⟩ := hn.append (a := a) (b := b)
  refine ⟨?_, hn₁, ?_, hn₂, fun x hx => hk x ?_⟩
  · rintro r hr
    obtain ⟨x, hx, rfl⟩ := List.mem_map.mp hr
    exact hk x (List.mem_append_left _ hx) (hgap x hx)
  · refine hs.imp_right fun hhead hgap => ?_
    rw [List.map_eq_nil_iff] at hgap
    subst hgap
    obtain ⟨s, seg, rfl⟩ := List.exists_cons_of_ne_nil hne
    exact nomatch hhead _ rfl
  · exact List.mem_append_right _ (List.mem_append_right _ hx)

def Rooted : List (Rec × Bool) → Prop
  | [] => True
  | (_, true) :: recs => Rooted recs
  | (_, false) :: recs =>
    let run := recs.takeWhile Prod.snd
    (run = [] ∨ ∃ x ∈ run, x.1.op ≠ .insert) ∧ Rooted recs

theorem rooted_run {gap : List (Rec × Bool)} {seg : List Rec} {rest : List (Rec × Bool)}
    (hgap : ∀ x ∈ gap, x.2 = false) (hne : seg ≠ []) (hrest : ∀ x ∈ rest.head?, x.2 = false)
    (h : Rooted (gap ++ (seg.map (·, true) ++ rest))) :
    (gap = [] ∨ ∃ s ∈ seg, s.op ≠ .insert) ∧ Rooted rest := by
  induction gap with
  | nil =>
    refine ⟨.inl rfl, ?_⟩
    rw [List.nil_append] at h
    clear hne
    induction seg with
    | nil => exact h
    | cons s seg ih => exact ih h
  | cons x gap ih =>
    obtain ⟨r, marked⟩ := x
    obtain rfl : marked = false := hgap _ (.head _)
    obtain ⟨hrun, htail⟩ := h
    obtain ⟨hseg, hrest'⟩ := ih (fun y hy => hgap y (.tail _ hy)) htail
    refine ⟨.inr (hseg.elim (fun hnil => ?_) id), hrest'⟩
    subst hnil
    have htake : (seg.map (·, true) ++ rest).takeWhile Prod.snd = seg.map (·, true) := by
      rw [List.takeWhile_append_of_pos fun x hx => by
        obtain ⟨s, -, rfl⟩ := List.mem_map.mp hx
        rfl]
      cases rest with
      | nil => exact List.append_nil _
      | cons y rest => rw [List.takeWhile_cons_of_neg (by simp [hrest y rfl]), List.append_nil]
    change List.takeWhile Prod.snd (seg.map (·, true) ++ rest) = [] ∨
      ∃ x ∈ List.takeWhile Prod.snd (seg.map (·, true) ++ rest), x.1.op ≠ .insert at hrun
    rw [htake] at hrun
    rcases hrun with hnil | ⟨x, hx, hop⟩
    · exact absurd (List.map_eq_nil_iff.mp hnil) hne
    · obtain ⟨s, hs, rfl⟩ := List.mem_map.mp hx
      exact ⟨s, hs, hop⟩

theorem rooted_of_chain {recs : List (Rec × Bool)}
    (hc : recs.IsChain fun x y => x.2 = false → y.1.op = .equal) : Rooted recs := by
  induction recs with
  | nil => exact trivial
  | cons x recs ih =>
    obtain ⟨r, marked⟩ := x
    have htail := ih (List.isChain_cons.mp hc).2
    cases marked with
    | true => exact htail
    | false =>
      refine ⟨?_, htail⟩
      cases recs with
      | nil => exact .inl rfl
      | cons y recs =>
        have hop := (List.isChain_cons.mp hc).1 y rfl rfl
        cases hy : y.2 with
        | false => exact .inl (List.takeWhile_cons_of_neg (by simp [hy]))
        | true =>
          right
          rw [List.takeWhile_cons_of_pos hy]
          exact ⟨y, .head _, by rw [hop]; nofun⟩

theorem takeWhile_ops {recs : List (Rec × Bool)}
    (hall : ∀ x ∈ recs, x.2 = true ↔ x.1.op ≠ .equal) :
    (recs.map fun x => x.1.op).takeWhile (· ≠ .equal) =
      (recs.takeWhile Prod.snd).map fun x => x.1.op := by
  induction recs with
  | nil => rfl
  | cons x recs ih =>
    have hx := hall x (.head _)
    have ih := ih fun y hy => hall y (.tail _ hy)
    by_cases hop : x.1.op = .equal
    · have hfalse : ¬ x.2 = true := fun h => hx.mp h hop
      rw [List.map_cons, List.takeWhile_cons_of_neg (by simpa using hop),
        List.takeWhile_cons_of_neg hfalse]
      rfl
    · rw [List.map_cons, List.takeWhile_cons_of_pos (by simpa using hop),
        List.takeWhile_cons_of_pos (hx.mpr hop), ih]
      rfl

theorem rooted_of_anchored {recs : List (Rec × Bool)}
    (hall : ∀ x ∈ recs, x.2 = true ↔ x.1.op ≠ .equal)
    (h : Anchored (recs.map fun x => x.1.op)) : Rooted recs := by
  induction recs with
  | nil => exact trivial
  | cons x recs ih =>
    obtain ⟨r, marked⟩ := x
    have hrecs : ∀ y ∈ recs, y.2 = true ↔ y.1.op ≠ .equal := fun y hy => hall y (.tail _ hy)
    have hr := hall _ (.head _)
    rw [List.map_cons] at h
    cases marked with
    | true =>
      refine ih hrecs ?_
      cases hop : r.op with
      | equal => exact absurd hop (hr.mp rfl)
      | delete => rwa [hop] at h
      | insert => rwa [hop] at h
    | false =>
      have hop : r.op = .equal := by
        by_contra hop
        cases hr.mpr hop
      rw [hop] at h
      obtain ⟨hrun, htail⟩ := h
      refine ⟨?_, ih hrecs htail⟩
      simp only [takeWhile_ops hrecs] at hrun
      generalize recs.takeWhile Prod.snd = run at hrun
      cases run with
      | nil => exact .inl rfl
      | cons y run =>
        right
        by_cases hy : y.1.op = .insert
        · obtain ⟨z, hz, hdel⟩ := List.mem_map.mp (hrun (by rw [List.map_cons, hy]; exact .head _))
          exact ⟨z, hz, by rw [hdel]; nofun⟩
        · exact ⟨y, .head _, hy⟩

theorem Splits.apply (h : Splits segs recs) (hn : Numbered ai bi (recs.map Prod.fst))
    (hk : Kept recs) (hs : Apart ai bi recs) (hp : Rooted recs) :
    applyFrom ai (segs.map (hunkOf a b)) (oldSide ((recs.map Prod.fst).map (Rec.line a b))) =
        some (newSide ((recs.map Prod.fst).map (Rec.line a b))) ∧
      Ordered ai (segs.map (hunkOf a b)) := by
  induction h generalizing ai bi with
  | gap hgap =>
    refine ⟨congrArg some (sides_gap a b fun r hr => ?_).1, trivial⟩
    obtain ⟨x, hx, rfl⟩ := List.mem_map.mp hr
    exact hk x hx (hgap x hx)
  | @run gap seg segs rest hgap hne hrest _ ih =>
    have hparts := runParts a b hgap hne hn hk hs
    obtain ⟨hroot, hrooted⟩ := rooted_run hgap hne hrest hp
    have hroot' : gap.map Prod.fst = [] ∨ ∃ s ∈ seg, s.op ≠ .insert :=
      hroot.imp_left fun h => by rw [h]; rfl
    have ha := before_run (a := a) (b := b) hparts.keeps hparts.numbered hparts.start hroot'
    have hkept := sides_gap a b hparts.keeps
    obtain ⟨-, hseg⟩ := hparts.numbered.append (a := a) (b := b)
    have hbody : (hunkOf a b seg).body = seg.map (Rec.line a b) := rfl
    have hglen := hkept.2
    have hdone : before (hunkOf a b seg).a + (hunkOf a b seg).a.2 =
        ai + (oldSide ((gap.map Prod.fst ++ seg).map (Rec.line a b))).length := by
      rw [ha, (hunkOf_a a b hseg).1, List.map_append, oldSide_append, List.length_append, hglen,
        Nat.add_assoc, hbody]
    obtain ⟨happly, hordered⟩ := ih hparts.next hparts.kept (.inr hrest) hrooted
    refine ⟨?_, by rw [ha]; exact Nat.le_add_right _ _, by rwa [hdone]⟩
    rw [map_parts, List.map_append, List.map_append, oldSide_append, oldSide_append, List.map_cons,
      applyFrom, hdone, if_neg, ha, Nat.add_sub_cancel_left, ← hglen,
      List.drop_left, List.take_left, hbody, applyBody_spec]
    · change (applyFrom _ _ _ >>= fun tail => some (_ ++ _ ++ tail)) = _
      rw [happly, newSide_append, newSide_append, hkept.1, ← List.append_assoc]
      rfl
    · rw [ha, ← hglen, List.length_append]
      omega

theorem Splits.numbered (h : Splits segs recs) (hn : Numbered ai bi (recs.map Prod.fst)) :
    ∀ seg ∈ segs, ∃ i j, Numbered i j seg := by
  induction h generalizing ai bi with
  | gap => exact nofun
  | run _ _ _ _ ih =>
    rw [map_parts] at hn
    obtain ⟨hseg, hrest⟩ := (hn.append (a := ⟨[], true⟩) (b := ⟨[], true⟩)).2.append
      (a := ⟨[], true⟩) (b := ⟨[], true⟩)
    exact List.forall_mem_cons.mpr ⟨⟨_, _, hseg⟩, ih hrest⟩

end Runs

end Render

end AScript.Stdlib.Diff
