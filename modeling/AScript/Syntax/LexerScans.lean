import AScript.Syntax.Lexer

namespace AScript.Syntax

open Lexer CstLexer

theorem unescapeBody_cons (hc : c ≠ backslash) (cs : List Char) :
    unescapeBody escape (c :: cs) = c :: unescapeBody escape cs := by
  cases cs with
  | nil => rfl
  | cons e cs => rw [unescapeBody, if_neg hc]

theorem unescapeBody_escape (e : Char) (cs : List Char) :
    unescapeBody escape (backslash :: e :: cs) = escape e :: unescapeBody escape cs := by
  rw [unescapeBody, if_pos rfl]

theorem unescapeStrBody_cons (hc : c ≠ backslash) (cs : List Char) :
    unescapeStrBody (c :: cs) = c :: unescapeStrBody cs := unescapeBody_cons hc cs

theorem unescapeStrBody_escape (e : Char) (cs : List Char) :
    unescapeStrBody (backslash :: e :: cs) = escapeChar e :: unescapeStrBody cs :=
  unescapeBody_escape e cs

theorem unescapeTemplateBody_cons (hc : c ≠ backslash) (cs : List Char) :
    unescapeTemplateBody (c :: cs) = c :: unescapeTemplateBody cs := unescapeBody_cons hc cs

theorem unescapeTemplateBody_escape (e : Char) (cs : List Char) :
    unescapeTemplateBody (backslash :: e :: cs) = escapeTemplateChar e :: unescapeTemplateBody cs :=
  unescapeBody_escape e cs

theorem lexQuoted_closed (hq : quote ≠ backslash) (h : (scanStringEnd quote cs).2 = true) :
    ∃ n, (scanStringEnd quote cs).1 = n + 1 ∧
      lexQuoted quote cs = some (unescapeStrBody (cs.take n), n + 1) := by
  induction cs using scanStringEnd.induct quote with
  | case1 => cases h
  | case2 c =>
    obtain rfl : c = quote := beq_iff_eq.mp h
    exact ⟨0, rfl, by rw [lexQuoted, if_pos rfl]; rfl⟩
  | case3 e cs ih =>
    rw [scanStringEnd, if_pos rfl] at h ⊢
    obtain ⟨n, hn, hl⟩ := ih h
    refine ⟨n + 2, by rw [hn], ?_⟩
    rw [lexQuoted, if_neg hq.symm, if_pos rfl, hl, Option.map_some, List.take_succ_cons,
      List.take_succ_cons, unescapeStrBody_escape]
  | case4 e cs h' =>
    rw [scanStringEnd, if_neg h', if_pos rfl]
    exact ⟨0, rfl, by rw [lexQuoted, if_pos rfl]; rfl⟩
  | case5 c e cs hb hc ih =>
    rw [scanStringEnd, if_neg hb, if_neg hc] at h ⊢
    obtain ⟨n, hn, hl⟩ := ih h
    refine ⟨n + 1, by rw [hn], ?_⟩
    rw [lexQuoted, if_neg hc, if_neg hb, hl, Option.map_some, List.take_succ_cons,
      unescapeStrBody_cons hb]

theorem lexQuoted_open (hq : quote ≠ backslash) (h : (scanStringEnd quote cs).2 = false) :
    lexQuoted quote cs = none := by
  induction cs using scanStringEnd.induct quote with
  | case1 => rfl
  | case2 c => rw [lexQuoted, if_neg (by simpa [scanStringEnd] using h)]
  | case3 e cs ih =>
    rw [scanStringEnd, if_pos rfl] at h
    rw [lexQuoted, if_neg hq.symm, if_pos rfl, ih h, Option.map_none]
  | case4 e cs h' =>
    rw [scanStringEnd, if_neg h', if_pos rfl] at h
    cases h
  | case5 c e cs hb hc ih =>
    rw [scanStringEnd, if_neg hb, if_neg hc] at h
    rw [lexQuoted, if_neg hc, if_neg hb, ih h, Option.map_none]

theorem backtick_ne_backslash : backtick ≠ backslash := by decide

theorem backslash_ne_dollar : backslash ≠ '$' := by decide

theorem scanChunk_stop (cs : List Char) :
    match scanChunk cs with
    | (n, .closed) => ∃ m, n = m + 1 ∧
      lexTemplateChunk cs = some (unescapeTemplateBody (cs.take m), n, .full)
    | (n, .interpolation) => ∃ m, n = m + 2 ∧
      lexTemplateChunk cs = some (unescapeTemplateBody (cs.take m), n, .start)
    | (_, .unterminated) => lexTemplateChunk cs = none := by
  induction cs using scanChunk.induct with
  | case1 => rfl
  | case2 c =>
    rw [scanChunk]
    by_cases hc : c = backtick
    · rw [if_pos hc]
      exact ⟨0, rfl, by rw [lexTemplateChunk, if_pos hc]; rfl⟩
    · rw [if_neg hc]
      exact (by rw [lexTemplateChunk, if_neg hc] : lexTemplateChunk [c] = none)
  | case3 e cs ih =>
    rw [scanChunk, if_pos rfl]
    have hlex : lexTemplateChunk (backslash :: e :: cs) =
        (lexTemplateChunk cs).map fun r => (escapeTemplateChar e :: r.1, r.2.1 + 2, r.2.2) := by
      rw [lexTemplateChunk, if_neg backtick_ne_backslash.symm,
        if_neg (fun h => backslash_ne_dollar h.1), if_pos rfl]
    rw [hlex]
    rcases hs : scanChunk cs with ⟨n, _ | _ | _⟩ <;> rw [hs] at ih
    · obtain ⟨m, rfl, hl⟩ := ih
      refine ⟨m + 2, rfl, ?_⟩
      rw [hl, Option.map_some, List.take_succ_cons, List.take_succ_cons,
        unescapeTemplateBody_escape]
    · obtain ⟨m, rfl, hl⟩ := ih
      refine ⟨m + 2, rfl, ?_⟩
      rw [hl, Option.map_some, List.take_succ_cons, List.take_succ_cons,
        unescapeTemplateBody_escape]
    · exact congrArg (Option.map _) ih
  | case4 e cs h =>
    rw [scanChunk, if_neg h, if_pos rfl]
    exact ⟨0, rfl, by rw [lexTemplateChunk, if_pos rfl]; rfl⟩
  | case5 c e cs h h' hd =>
    rw [scanChunk, if_neg h, if_neg h', if_pos hd]
    exact ⟨0, rfl, by rw [lexTemplateChunk, if_neg h', if_pos hd]; rfl⟩
  | case6 c e cs h h' hd ih =>
    rw [scanChunk, if_neg h, if_neg h', if_neg hd]
    have hlex : lexTemplateChunk (c :: e :: cs) =
        (lexTemplateChunk (e :: cs)).map fun r => (c :: r.1, r.2.1 + 1, r.2.2) := by
      rw [lexTemplateChunk, if_neg h', if_neg hd, if_neg h]
    rw [hlex]
    rcases hs : scanChunk (e :: cs) with ⟨n, _ | _ | _⟩ <;> rw [hs] at ih
    · obtain ⟨m, rfl, hl⟩ := ih
      exact ⟨m + 1, rfl, by
        rw [hl, Option.map_some, List.take_succ_cons, unescapeTemplateBody_cons h]⟩
    · obtain ⟨m, rfl, hl⟩ := ih
      exact ⟨m + 1, rfl, by
        rw [hl, Option.map_some, List.take_succ_cons, unescapeTemplateBody_cons h]⟩
    · exact congrArg (Option.map _) ih

theorem skipBlock_eq (cs : List Char) :
    skipBlock cs = if (scanBlockEnd cs).2 then some (scanBlockEnd cs).1 else none := by
  induction cs using scanBlockEnd.induct with
  | case1 cs => rfl
  | case2 c d cs h ih =>
    rw [skipBlock, scanBlockEnd, ih]
    · split <;> rfl
    · exact h
    · exact h
  | case3 cs h h' =>
    rcases cs with - | ⟨c, - | ⟨d, cs⟩⟩
    · rfl
    · simp [skipBlock, scanBlockEnd]
    · exact absurd rfl (h' c d cs)

theorem runLength_le (p : Char → Bool) (cs : List Char) : runLength p cs ≤ cs.length :=
  (List.takeWhile_prefix p).length_le

theorem runLength_cons (h : p c = true) : runLength p (c :: cs) = runLength p cs + 1 := by
  rw [runLength, List.takeWhile_cons_of_pos h, List.length_cons, runLength]

theorem runLength_pos_iff {p : Char → Bool} : 0 < runLength p (c :: cs) ↔ p c = true := by
  rw [runLength, List.takeWhile_cons]
  split <;> simp [*]

theorem scanFraction_le (cs : List Char) : scanFraction cs ≤ cs.length := by
  unfold scanFraction
  split
  · split
    · rw [List.length_cons, Nat.add_comm]
      exact Nat.succ_le_succ (runLength_le _ _)
    · exact Nat.zero_le _
  · exact Nat.zero_le _

theorem exponentOk_iff (cs : List Char) : exponentOk cs = true ↔
    0 < runLength Char.isDigit (cs.drop
      (if cs.head? = some '+' ∨ cs.head? = some '-' then 1 else 0)) := by
  cases cs with
  | nil => simp [exponentOk, runLength]
  | cons d cs =>
    by_cases hs : d = '+' ∨ d = '-'
    · have hd : d.isDigit = false := by rcases hs with rfl | rfl <;> rfl
      rw [if_pos (by simpa using hs), List.drop_one, List.tail_cons, exponentOk, hd]
      cases cs with
      | nil => simp [runLength]
      | cons e cs => rw [runLength_pos_iff]; simp [hs]
    · rw [if_neg (by simpa using hs), List.drop_zero, runLength_pos_iff, exponentOk]
      simp only [not_or] at hs
      simp [hs.1, hs.2]

theorem exponentLength_eq (cs : List Char) : exponentLength cs = scanExponent cs := by
  cases cs with
  | nil => rfl
  | cons e cs =>
    rw [exponentLength, scanExponent]
    by_cases he : e = 'e' ∨ e = 'E'
    · rw [if_pos he]
      have hok := exponentOk_iff cs
      by_cases h0 : runLength Char.isDigit
          (cs.drop (if cs.head? = some '+' ∨ cs.head? = some '-' then 1 else 0)) = 0
      · rw [if_neg (fun h => by have := hok.mp h.2; omega)]
        exact (if_pos h0).symm
      · rw [if_pos ⟨he, hok.mpr (Nat.pos_of_ne_zero h0)⟩]
        exact (if_neg h0).symm
    · rw [if_neg he, if_neg fun h => he h.1]

theorem scanExponent_le (cs : List Char) : scanExponent cs ≤ cs.length := by
  cases cs with
  | nil => exact Nat.le_refl _
  | cons e cs =>
    rw [scanExponent]
    split
    · generalize hs : (if cs.head? = some '+' ∨ cs.head? = some '-' then 1 else 0) = sign
      dsimp only
      split
      · exact Nat.zero_le _
      · next h0 =>
        have hle := runLength_le Char.isDigit (cs.drop sign)
        rw [List.length_drop] at hle
        rw [List.length_cons]
        omega
    · exact Nat.zero_le _

theorem decimalLength_eq (cs : List Char) : decimalLength cs = scanDecimal cs := by
  simp only [decimalLength, scanDecimal, exponentLength_eq]

theorem scanDecimal_le (cs : List Char) : scanDecimal cs ≤ cs.length := by
  simp only [scanDecimal]
  have h1 := runLength_le isDecimal cs
  have h2 := scanFraction_le (cs.drop (runLength isDecimal cs))
  have h3 := scanExponent_le
    (cs.drop (runLength isDecimal cs + scanFraction (cs.drop (runLength isDecimal cs))))
  rw [List.length_drop] at h2 h3
  omega

theorem scanDecimal_pos (hc : c.isDigit = true) : 0 < scanDecimal (c :: cs) := by
  simp only [scanDecimal]
  have h : 0 < runLength isDecimal (c :: cs) ↔ isDecimal c = true := runLength_pos_iff
  rw [isDecimal, hc] at h
  have := h.mpr rfl
  omega

theorem numberLength_eq (cs : List Char) : (numberLength cs).1 = scanNumber cs := by
  unfold numberLength
  split
  · next x cs =>
    rw [scanNumber]
    by_cases hx : x = 'x' ∨ x = 'X'
    · have hr : isRadixChar x = true := by rcases hx with rfl | rfl <;> rfl
      have hd : isRadixDigit x = isHexDigit := funext fun d => if_pos hx
      simp only [if_pos hr, if_pos hx, hd]
    · have hd : (fun d => isRadixDigit x d || d == '_') = isDecimal := by
        funext d
        rw [isRadixDigit, if_neg hx, isDecimal]
      by_cases hb : x = 'b' ∨ x = 'B'
      · have hr : isRadixChar x = true := by rcases hb with rfl | rfl <;> rfl
        simp only [if_pos hr, if_neg hx, if_pos hb, hd]
      · by_cases ho : x = 'o' ∨ x = 'O'
        · have hr : isRadixChar x = true := by rcases ho with rfl | rfl <;> rfl
          simp only [if_pos hr, if_neg hx, if_neg hb, if_pos ho, hd]
        · have hr : isRadixChar x = false := by simp [isRadixChar]; tauto
          simp only [hr, Bool.false_eq_true, if_false, if_neg hx, if_neg hb, if_neg ho,
            decimalLength_eq]
  · next h =>
    rw [scanNumber, decimalLength_eq]
    exact h

theorem scanNumber_le (cs : List Char) : scanNumber cs ≤ cs.length := by
  unfold scanNumber
  split
  · next x cs =>
    have hle := fun p => runLength_le p cs
    simp only [List.length_cons]
    split
    · have := hle fun d => isHexDigit d || d == '_'
      omega
    split
    · have := hle isDecimal
      omega
    split
    · have := hle isDecimal
      omega
    · exact scanDecimal_le _
  · exact scanDecimal_le _

theorem scanNumber_pos (hc : c.isDigit = true) : 0 < scanNumber (c :: cs) := by
  unfold scanNumber
  split
  · split
    · omega
    split
    · omega
    split
    · omega
    · exact scanDecimal_pos rfl
  · exact scanDecimal_pos hc

end AScript.Syntax
