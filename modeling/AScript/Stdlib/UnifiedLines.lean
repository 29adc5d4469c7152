import AScript.Stdlib.UnifiedApply

/-! The marks of a unified diff, and exactly when its output applies (`stdlib/diff.rs`). -/

namespace AScript.Stdlib.Diff

open AScript.Lib AScript.Lib.Edit

theorem length_mark (lo hi : Nat) (v : List Bool) : (mark lo hi v).length = v.length :=
  List.length_mapIdx

theorem getElem?_mark {v : List Bool} (hj : j < v.length) : (mark lo hi v)[j]? = some true ↔
    v[j]? = some true ∨ lo ≤ j ∧ j < hi := by
  rw [mark, List.getElem?_mapIdx, List.getElem?_eq_getElem hj]
  simp

/-- The change at `k` marks `j`. -/
def Marks (context n k j : Nat) : Prop :=
  k - context ≤ j ∧ j < min (addWrap (addWrap k context) 1) n

theorem length_markFrom (context n : Nat) (recs : List Rec) (i : Nat) (v : List Bool) :
    (markFrom context n recs i v).length = v.length := by
  induction recs generalizing i v with
  | nil => rfl
  | cons r recs ih =>
    rw [markFrom, ih]
    split
    · rfl
    · exact length_mark _ _ _

theorem getElem?_markFrom {context n : Nat} {recs : List Rec} {v : List Bool} (i : Nat)
    (hj : j < v.length) : (markFrom context n recs i v)[j]? = some true ↔
      v[j]? = some true ∨ ∃ k r, recs[k]? = some r ∧ r.op ≠ .equal ∧ Marks context n (i + k) j := by
  induction recs generalizing i v with
  | nil => simp [markFrom]
  | cons r recs ih =>
    have hshift : (∃ k r', (r :: recs)[k]? = some r' ∧ r'.op ≠ .equal ∧ Marks context n (i + k) j) ↔
        (r.op ≠ .equal ∧ Marks context n i j) ∨
          ∃ k r', recs[k]? = some r' ∧ r'.op ≠ .equal ∧ Marks context n (i + 1 + k) j := by
      constructor
      · rintro ⟨k, r', hk, hop, hm⟩
        cases k with
        | zero =>
          obtain rfl := Option.some.inj hk
          exact .inl ⟨hop, hm⟩
        | succ k => exact .inr ⟨k, r', hk, hop, by rwa [Nat.add_assoc, Nat.add_comm 1]⟩
      · rintro (⟨hop, hm⟩ | ⟨k, r', hk, hop, hm⟩)
        · exact ⟨0, r, rfl, hop, hm⟩
        · exact ⟨k + 1, r', hk, hop, by rwa [Nat.add_assoc, Nat.add_comm 1] at hm⟩
    rw [markFrom, hshift]
    by_cases hop : r.op = .equal
    · rw [if_pos hop, ih (i + 1) hj]
      simp [hop]
    · rw [if_neg hop, ih (i + 1) (by rwa [length_mark]), getElem?_mark hj, or_assoc]
      simp [hop, Marks]

section Marked

variable {context : Nat} {recs : List Rec}

theorem length_inHunk (context : Nat) (recs : List Rec) :
    (inHunk context recs).length = recs.length := by
  rw [inHunk, length_markFrom, List.length_replicate]

theorem getElem?_inHunk (hj : j < recs.length) (hw : recs.length + context < 2 ^ 64) :
    (inHunk context recs)[j]? = some true ↔
      ∃ k r, recs[k]? = some r ∧ r.op ≠ .equal ∧ k ≤ j + context ∧ j ≤ k + context := by
  rw [inHunk, getElem?_markFrom 0 (by rwa [List.length_replicate]), List.getElem?_replicate]
  simp only [if_pos hj, Option.some.injEq, Bool.false_eq_true, false_or, Nat.zero_add]
  refine exists_congr fun k => exists_congr fun r => and_congr_right fun hk =>
    and_congr_right fun _ => ?_
  have hlt := (List.getElem?_eq_some_iff.mp hk).1
  rw [Marks, addWrap, addWrap, Nat.mod_eq_of_lt (by omega : k + context < 2 ^ 64),
    Nat.mod_eq_of_lt (by omega : k + context + 1 < 2 ^ 64)]
  omega

def marked (context : Nat) (recs : List Rec) : List (Rec × Bool) := recs.zip (inHunk context recs)

theorem map_fst_marked (context : Nat) (recs : List Rec) :
    (marked context recs).map Prod.fst = recs :=
  List.map_fst_zip (Nat.le_of_eq (length_inHunk context recs).symm)

theorem getElem?_marked (h : (marked context recs)[j]? = some x) :
    recs[j]? = some x.1 ∧ (inHunk context recs)[j]? = some x.2 ∧ j < recs.length := by
  obtain ⟨hr, hm⟩ := List.getElem?_zip_eq_some.mp h
  exact ⟨hr, hm, (List.getElem?_eq_some_iff.mp hr).1⟩

theorem getElem?_inHunk_of_near (hn : 2 * recs.length < 2 ^ 64) (hk : recs[k]? = some r)
    (hop : r.op ≠ .equal) (hfit : k + context + 1 < 2 ^ 64) (hj : j < recs.length)
    (hnear : recs.length + context < 2 ^ 64 → ∃ k r, recs[k]? = some r ∧ r.op ≠ .equal ∧
      k ≤ j + context ∧ j ≤ k + context) : (inHunk context recs)[j]? = some true := by
  by_cases hw : recs.length + context < 2 ^ 64
  · exact (getElem?_inHunk hj hw).mpr (hnear hw)
  · rw [inHunk, getElem?_markFrom 0 (by rwa [List.length_replicate])]
    refine .inr ⟨k, r, hk, hop, ?_⟩
    have hlt := (List.getElem?_eq_some_iff.mp hk).1
    rw [Marks, addWrap, addWrap, Nat.zero_add, Nat.mod_eq_of_lt (by omega : k + context < 2 ^ 64),
      Nat.mod_eq_of_lt hfit]
    omega

def First (context : Nat) (recs : List Rec) : Prop :=
  2 * recs.length < 2 ^ 64 ∧
    ∃ k r, recs[k]? = some r ∧ r.op ≠ .equal ∧ k + context + 1 < 2 ^ 64

theorem kept_marked (hw : First context recs) : Kept (marked context recs) := by
  obtain ⟨hn, k, r, hk, hchange, hfit⟩ := hw
  intro x hx hfalse
  obtain ⟨j, hj⟩ := List.getElem?_of_mem hx
  obtain ⟨hr, hm, hlt⟩ := getElem?_marked hj
  by_contra hop
  have := getElem?_inHunk_of_near hn hk hchange hfit hlt
    fun _ => ⟨j, x.1, hr, hop, by omega, by omega⟩
  rw [hm, hfalse] at this
  cases this

theorem chain_marked (hw : First context recs) (hc : 0 < context) :
    (marked context recs).IsChain fun x y => x.2 = false → y.1.op = .equal := by
  obtain ⟨hn, k, r, hk, hchange, hfit⟩ := hw
  rw [List.isChain_iff_getElem]
  intro i hi hfalse
  obtain ⟨-, hm, hlt⟩ := getElem?_marked (List.getElem?_eq_getElem (Nat.lt_of_succ_lt hi))
  obtain ⟨hr, -⟩ := getElem?_marked (List.getElem?_eq_getElem hi)
  by_contra hop
  have := getElem?_inHunk_of_near hn hk hchange hfit hlt
    fun _ => ⟨i + 1, _, hr, hop, by omega, by omega⟩
  rw [hm, hfalse] at this
  cases this

theorem marked_zero (hw : recs.length + 0 < 2 ^ 64) :
    ∀ x ∈ marked 0 recs, x.2 = true ↔ x.1.op ≠ .equal := by
  intro x hx
  obtain ⟨j, hj⟩ := List.getElem?_of_mem hx
  obtain ⟨hr, hm, hlt⟩ := getElem?_marked hj
  have hspec := getElem?_inHunk hlt hw
  rw [hm, Option.some.injEq] at hspec
  rw [hspec]
  constructor
  · rintro ⟨k, r, hk, hop, h₁, h₂⟩
    obtain rfl : k = j := by omega
    rw [hr] at hk
    obtain rfl := Option.some.inj hk
    exact hop
  · exact fun hop => ⟨j, x.1, hr, hop, Nat.le_refl _, Nat.le_refl _⟩

end Marked

section Script

variable {a b : Text}

theorem length_tokens (s : Text) :
    (newlineAwareTokens (splitLines s)).length = (splitLines s).lines.length := by
  rw [tokens_terminate, List.length_map, length_terminate]

theorem unifiedScript_spec
    (hbudget : (splitLines a).lines.length + (splitLines b).lines.length ≤ maxDiffLines) :
    ∃ script, unifiedScript a b = some (.ok script) ∧ Replays script (tokens a) (tokens b) ∧
      (a = b → ∀ e ∈ script, e = .equal) ∧
      (tokens a ≠ [] → tokens b ≠ [] → Chosen a b script) := by
  have hlen := length_intern (tokens a) (tokens b)
  rw [← length_tokens, ← length_tokens, ← tokens, ← tokens, ← hlen.1, ← hlen.2] at hbudget
  obtain ⟨script, hs, hrep, hmin, htraced⟩ := myers_spec hbudget
  have htokens : Replays script (tokens a) (tokens b) := Replays.of_intern hrep
  refine ⟨script, hs, htokens, ?_, fun ha hb =>
    ⟨htokens, fun s hrep => hmin s (Replays.intern hrep), ?_⟩⟩
  · rintro rfl
    have hself := hmin _ (Replays.intern (replays_self (tokens a)))
    have hzero : cost (List.replicate (tokens a).length Edit.equal) = 0 :=
      cost_eq_zero.mpr fun e he => List.eq_of_mem_replicate he
    exact cost_eq_zero.mp (Nat.le_zero.mp (hzero ▸ hself))
  · have hids := htraced (List.length_pos_iff.mp (by rw [hlen.1]; exact List.length_pos_iff.mpr ha))
      (List.length_pos_iff.mp (by rw [hlen.2]; exact List.length_pos_iff.mpr hb))
    rw [hlen.1, hlen.2] at hids
    exact hids.congr match_intern

theorem fileLines_of_tokens (h : tokens a = []) : fileLines a = [] := by
  rw [tokens, tokens_splitLines] at h
  exact List.map_eq_nil_iff.mp h

theorem replays_lines {script : List Edit} (hrep : Replays script (tokens a) (tokens b))
    (h : ∀ p ∈ fileLines a, ∀ q ∈ fileLines b, tokenOf p = tokenOf q → p = q) :
    Replays script (fileLines a) (fileLines b) := by
  rw [tokens, tokens, tokens_splitLines, tokens_splitLines] at hrep
  exact hrep.of_map h

theorem anchored_of_changes {script : List Edit} (h : ∀ e ∈ script, e ≠ .equal) :
    Anchored script := by
  induction script with
  | nil => exact trivial
  | cons e script ih =>
    have ih := ih fun e he => h e (.tail _ he)
    cases e with
    | equal => exact absurd rfl (h _ (.head _))
    | delete => exact ih
    | insert => exact ih

theorem changes_of_nil {as bs : List α} {script : List Edit} (h : Replays script as bs)
    (hnil : as = [] ∨ bs = []) : ∀ e ∈ script, e ≠ .equal := by
  induction h with
  | nil => exact nofun
  | equal => rcases hnil with h | h <;> cases h
  | delete _ ih =>
    exact List.forall_mem_cons.mpr ⟨nofun, ih (.inr (hnil.resolve_left (List.cons_ne_nil _ _)))⟩
  | insert _ ih =>
    exact List.forall_mem_cons.mpr ⟨nofun, ih (.inl (hnil.resolve_right (List.cons_ne_nil _ _)))⟩

theorem Regular.script {script : List Edit} (h : Regular a b context)
    (hrep : Replays script (tokens a) (tokens b))
    (hchosen : tokens a ≠ [] → tokens b ≠ [] → Chosen a b script) :
    Replays script (fileLines a) (fileLines b) ∧ (0 < context ∨ Anchored script) := by
  by_cases hnil : tokens a = [] ∨ tokens b = []
  · refine ⟨replays_lines hrep fun p hp q hq _ => ?_,
      .inr (anchored_of_changes (changes_of_nil hrep hnil))⟩
    rcases hnil with hnil | hnil
    · rw [fileLines_of_tokens hnil] at hp
      cases hp
    · rw [fileLines_of_tokens hnil] at hq
      cases hq
  · rw [not_or] at hnil
    have hscript := hchosen hnil.1 hnil.2
    exact ⟨h.keeps script hscript, h.anchored.imp_right fun h => h script hscript⟩

theorem exists_first {script : List Edit} (h : ¬ ∀ e ∈ script, e = .equal) :
    ∃ e, script[(script.takeWhile (· = .equal)).length]? = some e ∧ e ≠ .equal := by
  induction script with
  | nil => exact absurd nofun h
  | cons e script ih =>
    by_cases he : e = .equal
    · rw [List.takeWhile_cons_of_pos (by simpa using he), List.length_cons]
      exact ih fun hall => h (List.forall_mem_cons.mpr ⟨he, hall⟩)
    · rw [List.takeWhile_cons_of_neg (by simpa using he)]
      exact ⟨e, rfl, he⟩

theorem outputText_some (fromFile toFile : Text) (hunks : List UHunk) :
    outputText fromFile toFile (some hunks) ≠ [] := nofun

theorem applies_none {script : List Edit} (hrep : Replays script (fileLines a) (fileLines b))
    (h : ∀ e ∈ script, e = .equal) : Applies a b none := by
  have hlines := hrep.eq_of_equal h
  have hab : a = b := by rw [← concat_fileLines a, hlines, concat_fileLines]
  subst hab
  exact ⟨congrArg some (concat_fileLines a), nofun, trivial, fun _ _ => iff_of_true rfl rfl⟩

theorem fileLines_pieces (s : Text) : (splitLines s).pieces = fileLines s := terminate_splitLines s

theorem applies_some {recs : List Rec} (hne : a ≠ b) (hn : Numbered 0 0 recs)
    (hold : oldSide (recs.map (Rec.line (splitLines a) (splitLines b))) = fileLines a)
    (hnew : newSide (recs.map (Rec.line (splitLines a) (splitLines b))) = fileLines b)
    (hw : First context recs) (hroot : Rooted (marked context recs)) :
    Applies a b (some ((segmentsFrom [] (marked context recs)).map
      (hunkOf (splitLines a) (splitLines b)))) := by
  have hsplits : Splits (segmentsFrom [] (marked context recs)) (marked context recs) :=
    segmentsFrom_splits [] _
  have hn' : Numbered 0 0 ((marked context recs).map Prod.fst) := by rwa [map_fst_marked]
  obtain ⟨happly, hordered⟩ := hsplits.apply (a := splitLines a) (b := splitLines b) hn'
    (kept_marked hw) (.inl ⟨rfl, rfl⟩) hroot
  refine ⟨?_, ?_, hordered, fun f t => iff_of_false (outputText_some _ _ _) hne⟩
  · rw [map_fst_marked, hold, hnew] at happly
    rw [Option.getD_some, applyHunks, happly, Option.map_some, concat_fileLines]
  · intro h hmem
    obtain ⟨seg, hseg, rfl⟩ := List.mem_map.mp hmem
    obtain ⟨i, j, hnum⟩ := hsplits.numbered hn' seg hseg
    exact ⟨(hunkOf_a _ _ hnum).1, (hunkOf_b _ _ hnum).1⟩

/-- Where none of the three slips is met the output is a unified diff that applies. -/
theorem unified_applies (a b : Text) (context : Nat)
    (hbudget : (splitLines a).lines.length + (splitLines b).lines.length ≤ maxDiffLines)
    (h : Regular a b context) :
    ∃ out, unifiedLines a b context = some (.ok out) ∧ Applies a b out := by
  obtain ⟨script, hscript, hrep, hsame, hchosen⟩ := unifiedScript_spec hbudget
  obtain ⟨hlines, hanchored⟩ := h.script hrep hchosen
  by_cases hall : script.all (· == .equal) = true
  · have hequal : ∀ e ∈ script, e = .equal := fun e he =>
      beq_iff_eq.mp (List.all_eq_true.mp hall e he)
    refine ⟨none, ?_, applies_none hlines hequal⟩
    rw [unifiedLines, hscript]
    change (renderUnified _ _ _ _ >>= _) = _
    rw [renderUnified, if_pos hall]
    rfl
  · have hchange : ¬ ∀ e ∈ script, e = .equal := fun h =>
      hall (List.all_eq_true.mpr fun e he => beq_iff_eq.mpr (h e he))
    have hne : a ≠ b := fun h => hchange (hsame h)
    have hpieces :
        Replays script ((splitLines a).pieces.drop 0) ((splitLines b).pieces.drop 0) := by
      rwa [fileLines_pieces, fileLines_pieces]
    obtain ⟨recs, hrecs, hn, hops, hold, hnew⟩ := recsFrom_spec hpieces
    rw [List.drop_zero, fileLines_pieces] at hold hnew
    have hlen : recs.length ≤ maxDiffLines := by
      rw [← length_terminate (splitLines a).finalNewline,
        ← length_terminate (splitLines b).finalNewline, terminate_splitLines,
        terminate_splitLines] at hbudget
      rw [← List.length_map Rec.op, hops]
      exact hlines.length_le.trans hbudget
    have hfirst : First context recs := by
      obtain ⟨e, he, hop⟩ := exists_first hchange
      rw [← hops, List.getElem?_map, Option.map_eq_some_iff] at he
      obtain ⟨r, hr, rfl⟩ := he
      have hkept := hrep.kept_le
      have hfits := h.fits.resolve_left hne
      have hbig : 2 * maxDiffLines < 2 ^ 64 := by decide
      exact ⟨by omega, _, r, hr, hop, by rw [hops]; omega⟩
    have hroot : Rooted (marked context recs) := by
      rcases Nat.eq_zero_or_pos context with rfl | hc
      · refine rooted_of_anchored (marked_zero (by have := hfirst.1; omega)) ?_
        have hmap : (marked 0 recs).map (fun x => x.1.op) = script := by
          have hfst := congrArg (List.map Rec.op) (map_fst_marked 0 recs)
          rw [List.map_map, hops] at hfst
          exact hfst
        rw [hmap]
        exact hanchored.resolve_left (Nat.lt_irrefl 0)
      · exact rooted_of_chain (chain_marked hfirst hc)
    refine ⟨_, ?_, applies_some hne hn hold hnew hfirst hroot⟩
    rw [unifiedLines, hscript]
    change (renderUnified _ _ _ _ >>= _) = _
    rw [renderUnified, if_neg hall, hrecs]
    rfl

end Script

/-- One line becomes another, without context. -/
theorem unified_applies_one :
    ∃ out, unifiedLines ['x', '\n'] ['y'] 0 = some (.ok out) ∧ Applies ['x', '\n'] ['y'] out := by
  refine unified_applies _ _ 0 (by decide) ⟨.inr (by decide), fun script h => ?_,
    .inr fun script h => anchored_of_changes ?_⟩
  · exact replays_lines h.replays (by decide)
  · have hrep : Replays script [['x']] [sentinel ++ ['y']] := h.replays
    generalize hb : sentinel ++ ['y'] = t at hrep
    cases hrep with
    | equal => cases hb
    | delete hrep => exact List.forall_mem_cons.mpr ⟨nofun, changes_of_nil hrep (.inl rfl)⟩
    | insert hrep => exact List.forall_mem_cons.mpr ⟨nofun, changes_of_nil hrep (.inr rfl)⟩

theorem replays_keep {s : List Edit} (h : Replays s [0] [0]) (hcost : cost s ≤ 0) :
    s = [.equal] := by
  cases h with
  | equal h =>
    cases h
    rfl
  | delete => simp at hcost
  | insert => simp at hcost

theorem replays_add {s : List Edit} (h : Replays s [0] [0, 1]) (hcost : cost s ≤ 1) :
    s = [.equal, .insert] := by
  cases h with
  | equal h =>
    cases h with
    | insert h =>
      cases h
      rfl
  | delete h =>
    cases h with
    | insert h => simp at hcost
  | insert h =>
    cases h with
    | delete h => simp at hcost
    | insert h => simp at hcost

/-- A line to be added at the end is added at the front, a line with the sentinel is taken for the
one without its newline, and the changes of a widest context are left out. -/
theorem unified_lines_misapplied :
    (∃ out, unifiedLines ['x', '\n'] ['x', '\n', 'y', '\n'] 0 = some (.ok out) ∧
      applyHunks (out.getD []) ['x', '\n'] = some ['y', '\n', 'x', '\n'] ∧
        ¬ Applies ['x', '\n'] ['x', '\n', 'y', '\n'] out) ∧
      (∃ out, unifiedLines (sentinel ++ ['x', '\n']) ['x'] 3 = some (.ok out) ∧
        outputText ['a'] ['b'] out = [] ∧ ¬ Applies (sentinel ++ ['x', '\n']) ['x'] out) ∧
        ∃ out, unifiedLines [] ['y', '\n'] (2 ^ 64 - 1) = some (.ok out) ∧ out = some [] ∧
          ¬ Applies [] ['y', '\n'] out := by
  refine ⟨?_, ?_, ?_⟩
  · have hb : [0].length + [0, 1].length ≤ maxDiffLines := by decide
    obtain ⟨s, hs, hrep, hmin, -⟩ := myers_spec hb
    obtain rfl := replays_add hrep (hmin _ (.equal (.insert .nil)))
    have hscript : unifiedScript ['x', '\n'] ['x', '\n', 'y', '\n'] =
        some (.ok [.equal, .insert]) := hs
    refine ⟨some [⟨(0, 0), (2, 1), [(.insert, ['y'], true)]⟩], ?_, by decide, fun h => ?_⟩
    · rw [unifiedLines, hscript]
      rfl
    · exact absurd h.yields (by decide)
  · have hb : [0].length + [0].length ≤ maxDiffLines := by decide
    obtain ⟨s, hs, hrep, hmin, -⟩ := myers_spec hb
    obtain rfl := replays_keep hrep (hmin _ (.equal .nil))
    have hscript : unifiedScript (sentinel ++ ['x', '\n']) ['x'] = some (.ok [.equal]) := hs
    refine ⟨none, ?_, rfl, fun h => ?_⟩
    · rw [unifiedLines, hscript]
      rfl
    · exact absurd ((h.empty [] []).mp rfl) (by decide)
  · refine ⟨some [], rfl, rfl, fun h => absurd h.yields (by decide)⟩

end AScript.Stdlib.Diff
