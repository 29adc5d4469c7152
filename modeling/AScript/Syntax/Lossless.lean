import AScript.Syntax.CstLexer

namespace AScript.Syntax

open AScript.Lib

structure LexToken.Spelled (t : LexToken) : Prop where
  nonempty : t.text ≠ []
  fixed : ∀ text, t.kind.staticText = some text → t.text = text

def SyntaxKind.Flagged (kind : SyntaxKind) : Prop :=
  kind = .blockComment ∨ kind = .str ∨ kind = .templateStr ∨ kind = .templateStart ∨
    kind = .templateMiddle ∨ kind = .templateEnd

theorem SyntaxKind.Flagged.ne_shr {kind : SyntaxKind} (h : kind.Flagged) : kind ≠ .shr := by
  rintro rfl
  simp [Flagged] at h

@[simp] theorem render_nil : render [] = [] := rfl

@[simp] theorem render_cons : render (t :: ts) = t.text ++ render ts := rfl

@[simp] theorem render_append : render (ts ++ us) = render ts ++ render us :=
  List.flatMap_append

namespace CstLexer

variable {F : Type} {lib : TextLib F}

theorem matchOperator_spelled (h : matchOperator cs = some (kind, n)) :
    kind.staticText = some (cs.take n) ∧ 0 < n := by
  rw [matchOperator, Option.map_eq_some_iff] at h
  obtain ⟨⟨text, kind'⟩, hf, he⟩ := h
  simp only [Prod.mk.injEq] at he
  obtain ⟨rfl, rfl⟩ := he
  have hm := List.mem_of_find?_eq_some hf
  have hb := List.find?_some hf
  dsimp only at hb
  have hp : text <+: cs := List.isPrefixOf_iff_prefix.mp hb
  have hne : ∀ op ∈ SyntaxKind.operators, op.1 ≠ [] := by decide
  refine ⟨?_, List.length_pos_iff.mpr (hne _ hm)⟩
  rw [SyntaxKind.staticText_of_mem (List.mem_append_left _ hm), ← List.prefix_iff_eq_take.mp hp]

theorem keywordKind_spelled (h : keywordKind text = some kind) : kind.staticText = some text := by
  rw [keywordKind, Option.map_eq_some_iff] at h
  obtain ⟨⟨text', kind'⟩, hf, rfl⟩ := h
  have hb := List.find?_some hf
  obtain rfl : text' = text := beq_iff_eq.mp hb
  exact SyntaxKind.staticText_of_mem (List.mem_append_right _ (List.mem_of_find?_eq_some hf))

theorem staticText_flagged (h : SyntaxKind.Flagged kind) : kind.staticText = none := by
  obtain rfl | rfl | rfl | rfl | rfl | rfl := h <;> decide

theorem scanTemplateChunk_kind (fromBacktick : Bool) (cs : List Char) :
    (scanTemplateChunk fromBacktick cs).1.Flagged := by
  rcases hs : scanChunk cs with ⟨n, stop⟩
  cases fromBacktick <;> cases stop <;> simp [scanTemplateChunk, hs, SyntaxKind.Flagged]

theorem lexeme_spelled (lib : TextLib F) (st : LexState) (c : Char) (cs : List Char) :
    (lexeme lib st c cs).kind.staticText = none ∨
      (lexeme lib st c cs).kind.staticText = some (c :: cs.take (lexeme lib st c cs).more) := by
  unfold lexeme
  split
  · exact .inl (show SyntaxKind.newline.staticText = none by decide)
  split
  · exact .inl (show SyntaxKind.whitespace.staticText = none by decide)
  split
  · exact .inl (show SyntaxKind.lineComment.staticText = none by decide)
  split
  · exact .inl (show SyntaxKind.blockComment.staticText = none by decide)
  split
  · exact .inl (show SyntaxKind.number.staticText = none by decide)
  split
  · dsimp only
    cases hk : keywordKind (c :: cs.take (runLength lib.isWordRest cs)) with
    | none => exact .inl (show SyntaxKind.ident.staticText = none by decide)
    | some kind => exact .inr (keywordKind_spelled hk)
  split
  · exact .inl (show SyntaxKind.str.staticText = none by decide)
  split
  · exact .inl (staticText_flagged (scanTemplateChunk_kind true cs))
  split
  · exact .inl (staticText_flagged (scanTemplateChunk_kind false cs))
  split
  · next kind n hop =>
    obtain ⟨hs, hn⟩ := matchOperator_spelled hop
    obtain ⟨n, rfl⟩ := Nat.exists_eq_succ_of_ne_zero hn.ne'
    exact .inr hs
  · exact .inl (show SyntaxKind.error.staticText = none by decide)

theorem lexeme_lacks (h : (lexeme lib st c cs).lacks = some message) :
    (lexeme lib st c cs).kind.Flagged := by
  revert h
  unfold lexeme
  split
  · exact nofun
  split
  · exact nofun
  split
  · exact nofun
  split
  · exact fun _ => .inl rfl
  split
  · exact nofun
  split
  · exact nofun
  split
  · exact fun _ => .inr (.inl rfl)
  split
  · exact fun _ => scanTemplateChunk_kind true cs
  split
  · exact fun _ => scanTemplateChunk_kind false cs
  split <;> exact nofun

structure Sound (src : List Char) (st : LexState) (rest : List Char) : Prop where
  whole : render st.tokens ++ rest = src
  spelled : ∀ t ∈ st.tokens, t.Spelled
  flagged : ∀ e ∈ st.errors, ∃ t, st.tokens[e.token]? = some t ∧ t.kind.Flagged
  interpolated : ∀ i ∈ st.templateStack, ∃ t, st.tokens[i.2]? = some t ∧ t.kind.Flagged

theorem Sound.step (h : Sound src st (c :: cs)) :
    Sound src (CstLexer.step lib st c cs).1 (cs.drop (CstLexer.step lib st c cs).2) := by
  have keep : ∀ {i : Nat} {u : LexToken}, (∃ t, st.tokens[i]? = some t ∧ t.kind.Flagged) →
      ∃ t, (st.tokens ++ [u])[i]? = some t ∧ t.kind.Flagged := by
    rintro i u ⟨t, ht, hf⟩
    exact ⟨t, by rw [List.getElem?_append_left (List.getElem?_eq_some_iff.mp ht).1, ht], hf⟩
  constructor
  · rw [← h.whole]
    simp [CstLexer.step, LexState.push]
  · intro t ht
    rcases List.mem_append.mp ht with ht | ht
    · exact h.spelled t ht
    · obtain rfl := List.mem_singleton.mp ht
      refine ⟨nofun, fun text hs => ?_⟩
      rcases lexeme_spelled lib st c cs with hn | hn
      · rw [hn] at hs
        cases hs
      · rw [hn] at hs
        exact Option.some.inj hs
  · intro e he
    rcases List.mem_append.mp he with he | he
    · exact keep (h.flagged e he)
    · obtain ⟨message, hm, rfl⟩ := List.mem_map.mp he
      exact ⟨_, List.getElem?_concat_length, lexeme_lacks (Option.mem_toList.mp hm)⟩
  · intro i hi
    simp only [CstLexer.step, LexState.push] at hi
    split at hi
    · next hk =>
      rcases List.mem_cons.mp hi with rfl | hi
      · exact ⟨_, List.getElem?_concat_length, .inr (.inr (.inr (.inl hk)))⟩
      · exact keep (h.interpolated i hi)
    · exact keep (h.interpolated i (List.mem_of_mem_tail hi))
    · exact keep (h.interpolated i hi)

theorem sound (lib : TextLib F) (src : List Char) : Sound src (lexAll lib src) [] :=
  scan_induct (fun _ _ _ => Sound.step) ⟨rfl, nofun, nofun, nofun⟩

theorem render_lexed (lib : TextLib F) (src : List Char) :
    render (lexWithErrors lib src).1 = src := by
  have h := (sound lib src).whole
  rwa [List.append_nil] at h

theorem spelled_lexed (h : t ∈ (lexWithErrors lib src).1) : t.Spelled := (sound lib src).spelled t h

theorem flagged_lexed (h : e ∈ (lexWithErrors lib src).2) :
    ∃ t, (lexWithErrors lib src).1[e.token]? = some t ∧ t.kind.Flagged := by
  rcases List.mem_append.mp h with h | h
  · exact (sound lib src).flagged e h
  · obtain ⟨i, hi, rfl⟩ := List.mem_map.mp h
    exact (sound lib src).interpolated i (List.mem_reverse.mp hi)

end CstLexer

end AScript.Syntax
