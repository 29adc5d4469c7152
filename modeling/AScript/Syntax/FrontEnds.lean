import AScript.Syntax.LexerScans
import AScript.Syntax.Lossless

namespace AScript.Syntax

open Lexer CstLexer

variable {F : Type}

def symbolTok : SyntaxKind → Option (Tok F)
  | .plus => some .plus
  | .minus => some .minus
  | .star => some .star
  | .slash => some .slash
  | .percent => some .percent
  | .starStar => some .starStar
  | .lParen => some .lParen
  | .rParen => some .rParen
  | .lBrace => some .lBrace
  | .rBrace => some .rBrace
  | .hashLBrace => some .hashBrace
  | .lBracket => some .lBracket
  | .rBracket => some .rBracket
  | .comma => some .comma
  | .dot => some .dot
  | .colon => some .colon
  | .semicolon => some .semicolon
  | .bang => some .bang
  | .bangEq => some .bangEq
  | .eqEq => some .eqEq
  | .eq => some .eq
  | .lt => some .lt
  | .le => some .le
  | .gt => some .gt
  | .ge => some .ge
  | .ampAmp => some .ampAmp
  | .pipePipe => some .pipePipe
  | .questionQuestion => some .questionQuestion
  | .question => some .question
  | .questionDot => some .questionDot
  | .pipe => some .pipe
  | .amp => some .amp
  | .caret => some .caret
  | .tilde => some .tilde
  | .shl => some .shl
  | .shr => some .shr
  | .plusPercent => some .plusPercent
  | .minusPercent => some .minusPercent
  | .starPercent => some .starPercent
  | .plusEq => some .plusEq
  | .minusEq => some .minusEq
  | .starEq => some .starEq
  | .slashEq => some .slashEq
  | .dotDot => some .dotDot
  | .dotDotEq => some .dotDotEq
  | .dotDotDot => some .dotDotDot
  | .fatArrow => some .fatArrow
  | .trueKw => some .trueKw
  | .falseKw => some .falseKw
  | .nilKw => some .nil
  | .letKw => some .letKw
  | .constKw => some .const
  | .ifKw => some .ifKw
  | .elseKw => some .elseKw
  | .whileKw => some .whileKw
  | .forKw => some .forKw
  | .inKw => some .inKw
  | .ofKw => some .of
  | .instanceofKw => some .instanceof
  | .returnKw => some .returnKw
  | .breakKw => some .breakKw
  | .continueKw => some .continueKw
  | .fnKw => some .fn
  | .enumKw => some .enum
  | .matchKw => some .matchKw
  | .classKw => some .classKw
  | .interfaceKw => some .interface
  | .deferKw => some .defer
  | .importKw => some .importKw
  | .exportKw => some .exportKw
  | .asyncKw => some .async
  | .awaitKw => some .await
  | .yieldKw => some .yield
  | _ => none

def opsAt (c : Char) : List (List Char × SyntaxKind) :=
  (SyntaxKind.operators.filter (·.1.head? == some c)).map fun op => (op.1.tail, op.2)

theorem matchOperator_at (c : Char) (cs : List Char) : matchOperator (c :: cs) =
    ((opsAt c).find? (·.1.isPrefixOf cs)).map fun op => (op.2, op.1.length + 1) := by
  have hne : ∀ op ∈ SyntaxKind.operators, op.1 ≠ [] := by decide
  rw [matchOperator, opsAt]
  revert hne
  generalize SyntaxKind.operators = ops
  intro hne
  induction ops with
  | nil => rfl
  | cons op ops ih =>
    obtain ⟨text, kind⟩ := op
    cases text with
    | nil => exact absurd rfl (hne _ List.mem_cons_self)
    | cons d text =>
      have ih := ih fun op hop => hne op (List.mem_cons_of_mem _ hop)
      rw [List.find?_cons, List.filter_cons]
      by_cases hd : d = c
      · subst hd
        simp only [List.head?_cons, beq_self_eq_true, if_true, List.map_cons, List.find?_cons,
          List.tail_cons, List.isPrefixOf_cons_cons, Bool.true_and]
        split
        · simp
        · exact ih
      · simp only [List.isPrefixOf_cons_cons, beq_eq_false_iff_ne.mpr hd, Bool.false_and,
          List.head?_cons, Option.some_beq_some, Bool.false_eq_true, if_false]
        exact ih

theorem isPrefixOf_one (d : Char) (cs : List Char) : [d].isPrefixOf cs = (cs.head? == some d) := by
  cases cs with
  | nil => rfl
  | cons c cs => simp [List.isPrefixOf_cons_cons, Bool.beq_comm]

theorem isPrefixOf_two (d e : Char) (cs : List Char) :
    [d, e].isPrefixOf cs = (cs.head? == some d && cs.tail.head? == some e) := by
  cases cs with
  | nil => rfl
  | cons c cs => simp [List.isPrefixOf_cons_cons, isPrefixOf_one, Bool.beq_comm]

theorem find?_cons_eq (p : α → Bool) (a : α) (l : List α) :
    (a :: l).find? p = if p a then some a else l.find? p := by
  rw [List.find?_cons]
  cases p a <;> rfl

def symbolTable : List (Char × List (List Char × SyntaxKind)) := [
  ('+', [(['='], .plusEq), (['%'], .plusPercent), ([], .plus)]),
  ('-', [(['='], .minusEq), (['%'], .minusPercent), ([], .minus)]),
  ('*', [(['*'], .starStar), (['='], .starEq), (['%'], .starPercent), ([], .star)]),
  ('!', [(['='], .bangEq), ([], .bang)]),
  ('=', [(['='], .eqEq), (['>'], .fatArrow), ([], .eq)]),
  ('<', [(['='], .le), (['<'], .shl), ([], .lt)]),
  ('>', [(['='], .ge), (['>'], .shr), ([], .gt)]),
  ('&', [(['&'], .ampAmp), ([], .amp)]),
  ('^', [([], .caret)]),
  ('~', [([], .tilde)]),
  ('|', [(['|'], .pipePipe), ([], .pipe)]),
  ('?', [(['?'], .questionQuestion), (['.'], .questionDot), ([], .question)]),
  ('/', [(['='], .slashEq), ([], .slash)]),
  ('.', [(['.', '='], .dotDotEq), (['.', '.'], .dotDotDot), (['.'], .dotDot), ([], .dot)]),
  ('%', [([], .percent)]),
  ('(', [([], .lParen)]),
  (')', [([], .rParen)]),
  (',', [([], .comma)]),
  (';', [([], .semicolon)]),
  (':', [([], .colon)]),
  ('[', [([], .lBracket)]),
  (']', [([], .rBracket)])]

theorem opsAt_symbolTable : ∀ row ∈ symbolTable, opsAt row.1 = row.2 := by decide

theorem symbol_table (hc : (c, ops) ∈ symbolTable) (cs : List Char) :
    symbol (F := F) c cs = (ops.find? (·.1.isPrefixOf cs)).bind fun op =>
      (symbolTok op.2).map (·, op.1.length + 1) := by
  simp only [symbolTable, List.mem_cons, List.not_mem_nil, or_false, Prod.mk.injEq] at hc
  rcases hc with ⟨rfl, rfl⟩ | ⟨rfl, rfl⟩ | ⟨rfl, rfl⟩ | ⟨rfl, rfl⟩ | ⟨rfl, rfl⟩ | ⟨rfl, rfl⟩ |
    ⟨rfl, rfl⟩ | ⟨rfl, rfl⟩ | ⟨rfl, rfl⟩ | ⟨rfl, rfl⟩ | ⟨rfl, rfl⟩ | ⟨rfl, rfl⟩ | ⟨rfl, rfl⟩ |
    ⟨rfl, rfl⟩ | ⟨rfl, rfl⟩ | ⟨rfl, rfl⟩ | ⟨rfl, rfl⟩ | ⟨rfl, rfl⟩ | ⟨rfl, rfl⟩ | ⟨rfl, rfl⟩ |
    ⟨rfl, rfl⟩ | ⟨rfl, rfl⟩
  all_goals
    simp only [symbol, find?_cons_eq, isPrefixOf_one, isPrefixOf_two, List.isPrefixOf_nil_left,
      if_true, beq_iff_eq, Bool.and_eq_true]
  all_goals
    try split_ifs
  all_goals
    first
    | rfl
    | grind

def NoBrace (kind : SyntaxKind) : Prop := kind ≠ .lBrace ∧ kind ≠ .hashLBrace ∧ kind ≠ .rBrace

theorem symbolTable_noBrace : ∀ row ∈ symbolTable, ∀ op ∈ row.2,
    op.2 ≠ .lBrace ∧ op.2 ≠ .hashLBrace ∧ op.2 ≠ .rBrace := by decide

theorem symbol_of_not_mem (h : c ∉ symbolTable.map Prod.fst) : symbol (F := F) c cs = none := by
  unfold symbol
  split
  all_goals
    first
    | exact absurd (by decide) h
    | rfl

theorem symbol_some {tok : Tok F} (h : symbol c cs = some (tok, len)) :
    ∃ kind, matchOperator (c :: cs) = some (kind, len) ∧ symbolTok kind = some tok ∧
      NoBrace kind := by
  have hmem : c ∈ symbolTable.map Prod.fst := by
    by_contra hc
    rw [symbol_of_not_mem hc] at h
    cases h
  obtain ⟨⟨c, ops⟩, hrow, rfl⟩ := List.mem_map.mp hmem
  rw [symbol_table hrow, Option.bind_eq_some_iff] at h
  obtain ⟨op, hop, h⟩ := h
  obtain ⟨tok', ht, he⟩ := Option.map_eq_some_iff.mp h
  obtain ⟨rfl, rfl⟩ := Prod.mk.inj he
  refine ⟨op.2, ?_, ht, symbolTable_noBrace _ hrow op (List.mem_of_find?_eq_some hop)⟩
  rw [matchOperator_at, opsAt_symbolTable _ hrow, hop, Option.map_some]

theorem symbol_none (h : symbol (F := F) c cs = none) : c ∉ symbolTable.map Prod.fst := by
  intro hmem
  simp only [symbolTable, List.map_cons, List.map_nil, List.mem_cons, List.not_mem_nil,
    or_false] at hmem
  rcases hmem with rfl | rfl | rfl | rfl | rfl | rfl | rfl | rfl | rfl | rfl | rfl | rfl | rfl |
    rfl | rfl | rfl | rfl | rfl | rfl | rfl | rfl | rfl
  all_goals simp [symbol] at h

theorem matchOperator_none (h : c ∉ symbolTable.map Prod.fst) (h₁ : c ≠ '#') (h₂ : c ≠ '{')
    (h₃ : c ≠ '}') : matchOperator (c :: cs) = none := by
  have hheads : ∀ op ∈ SyntaxKind.operators,
      op.1.head? ∈ (('#' :: '{' :: '}' :: symbolTable.map Prod.fst).map some) := by decide
  have hnil : opsAt c = [] := by
    rw [opsAt, List.map_eq_nil_iff, List.filter_eq_nil_iff]
    intro op hop hc
    have := hheads op hop
    rw [beq_iff_eq.mp hc, List.mem_map] at this
    obtain ⟨d, hd, hdc⟩ := this
    obtain rfl := Option.some.inj hdc
    simp only [List.mem_cons, h, h₁, h₂, h₃, or_self] at hd
  rw [matchOperator_at, hnil]
  rfl

def tokFor (lib : TextLib F) (kind : SyntaxKind) (text : List Char) : Option (Tok F) :=
  match kind with
  | .number => (parseNumberText lib text).toOption.map numLitToken
  | .str => some (.str (unescapeStrBody text.tail.dropLast))
  | .ident => some (.ident text)
  | .templateStr => some (.templateStr (unescapeTemplateBody text.tail.dropLast))
  | .templateStart => some (.templateStart (unescapeTemplateBody text.tail.dropLast.dropLast))
  | .templateMiddle => some (.templateMiddle (unescapeTemplateBody text.tail.dropLast.dropLast))
  | .templateEnd => some (.templateEnd (unescapeTemplateBody text.tail.dropLast))
  | kind => symbolTok kind

def placed : Nat → List LexToken → List (Nat × LexToken)
  | _, [] => []
  | i, t :: ts => (i, t) :: placed (i + t.text.length) ts

def grammarTokens (tokens : List LexToken) : List (Nat × LexToken) :=
  (placed 0 tokens).filter (!·.2.kind.isTrivia)

/-- One token as both lexers have it. -/
structure Agrees (lib : TextLib F) (placed : Nat × LexToken) (token : Token F) : Prop where
  span : token.span = ⟨placed.1, placed.1 + placed.2.text.length⟩
  tok : tokFor lib placed.2.kind placed.2.text = some token.tok

/-- A token that neither lexer refuses. -/
def Readable (lib : TextLib F) (t : LexToken) : Prop :=
  t.kind ≠ .error ∧ (t.kind = .number → ∃ lit, parseNumberText lib t.text = .ok lit)

structure Clean (lib : TextLib F) (st : CstLexer.LexState) : Prop where
  errors : st.errors = []
  readable : ∀ t ∈ st.tokens, Readable lib t

structure Twin (lib : TextLib F) (a : Lexer.LexState F) (b : CstLexer.LexState) : Prop where
  i : a.i = (render b.tokens).length
  braceDepth : a.braceDepth = b.braceDepth
  templateStack : a.templateStack = b.templateStack.map Prod.fst
  tokens : List.Forall₂ (Agrees lib) (grammarTokens b.tokens) a.tokens
  clean : Clean lib b

variable {lib : TextLib F} {a : Lexer.LexState F} {b : CstLexer.LexState} {c : Char}
  {cs : List Char}

theorem placed_append :
    placed i (ts ++ us) = placed i ts ++ placed (i + (render ts).length) us := by
  induction ts generalizing i with
  | nil => rfl
  | cons t ts ih =>
    rw [List.cons_append, placed, placed, ih, render_cons, List.length_append, Nat.add_assoc,
      List.cons_append]

theorem grammarTokens_push (ts : List LexToken) (t : LexToken) : grammarTokens (ts ++ [t]) =
    grammarTokens ts ++ if t.kind.isTrivia then [] else [((render ts).length, t)] := by
  rw [grammarTokens, placed_append, List.filter_append, grammarTokens, Nat.zero_add]
  cases ht : t.kind.isTrivia <;> simp [placed, ht]

theorem readable_of_tokFor (h : tokFor lib kind text = some tok) : Readable lib ⟨kind, text⟩ := by
  constructor
  · rintro rfl
    cases h
  · rintro rfl
    cases hp : parseNumberText lib text with
    | ok lit => exact ⟨lit, rfl⟩
    | error e =>
      rw [tokFor, hp] at h
      cases h

def Follows (lib : TextLib F) (a : Lexer.LexState F) (b : CstLexer.LexState) (c : Char)
    (cs : List Char) (l : Lexeme) : Prop :=
  (∃ a', Lib.scan (Lexer.step lib) a (c :: cs) = Lib.scan (Lexer.step lib) a' (cs.drop l.more) ∧
    Twin lib a' (b.push l.kind (c :: cs.take l.more) l.lacks)) ∨
  ((∃ e, Lib.scan (Lexer.step lib) a (c :: cs) = .error e) ∧
    ¬ Clean lib (b.push l.kind (c :: cs.take l.more) l.lacks))

theorem scan_ok (h : Lexer.step lib a c cs = .ok (a', n)) :
    Lib.scan (Lexer.step lib) a (c :: cs) = Lib.scan (Lexer.step lib) a' (cs.drop n) := by
  rw [Lib.scan_cons, h]
  rfl

theorem scan_error (h : Lexer.step lib a c cs = .error e) :
    Lib.scan (Lexer.step lib) a (c :: cs) = .error e := by
  rw [Lib.scan_cons, h]
  rfl

theorem length_lexeme {c : Char} {cs : List Char} (hn : n ≤ cs.length) :
    (c :: cs.take n).length = n + 1 := by
  rw [List.length_cons, List.length_take, Nat.min_eq_left hn]

theorem Clean.push (h : Clean lib b) (ht : Readable lib ⟨kind, text⟩) :
    Clean lib (b.push kind text none) where
  errors := by simp [CstLexer.LexState.push, h.errors]
  readable t hmem := by
    rcases List.mem_append.mp hmem with hmem | hmem
    · exact h.readable t hmem
    · rwa [List.mem_singleton.mp hmem]

theorem trivia_cases {kind : SyntaxKind} (h : kind.isTrivia = true) :
    kind = .whitespace ∨ kind = .newline ∨ kind = .lineComment ∨ kind = .blockComment := by
  cases kind <;> simp_all [SyntaxKind.isTrivia]

theorem trivia_readable (h : kind.isTrivia = true) : Readable lib ⟨kind, text⟩ := by
  obtain rfl | rfl | rfl | rfl := trivia_cases h <;> exact ⟨nofun, nofun⟩

theorem follows_trivia (h : Twin lib a b) (hk : kind.isTrivia = true) (hn : n ≤ cs.length)
    (hs : Lib.scan (Lexer.step lib) a (c :: cs) =
      Lib.scan (Lexer.step lib) (a.skip (n + 1)) (cs.drop n)) :
    Follows lib a b c cs { kind, more := n } := by
  refine .inl ⟨a.skip (n + 1), hs, ?_, ?_, ?_, ?_, h.clean.push (trivia_readable hk)⟩
  · simp only [Lexer.LexState.skip, CstLexer.LexState.push, render_append, render_cons, render_nil,
      List.append_nil, List.length_append, length_lexeme hn, h.i]
  · obtain rfl | rfl | rfl | rfl := trivia_cases hk <;> exact h.braceDepth
  · obtain rfl | rfl | rfl | rfl := trivia_cases hk <;> exact h.templateStack
  · simp only [CstLexer.LexState.push, grammarTokens_push, hk, if_true, List.append_nil]
    exact h.tokens

theorem follows_token (h : Twin lib a b) (hk : kind.isTrivia = false) (hn : n ≤ cs.length)
    (hs : Lexer.step lib a c cs = .ok (a', n))
    (ht : tokFor lib kind (c :: cs.take n) = some tok)
    (htokens : a'.tokens = a.tokens ++ [⟨tok, ⟨a.i, a.i + (n + 1)⟩⟩])
    (hi : a'.i = a.i + (n + 1))
    (hd : a'.braceDepth = (b.push kind (c :: cs.take n) none).braceDepth)
    (hst : a'.templateStack = (b.push kind (c :: cs.take n) none).templateStack.map Prod.fst) :
    Follows lib a b c cs { kind, more := n } := by
  refine .inl ⟨a', scan_ok hs, ?_, hd, hst, ?_, h.clean.push (readable_of_tokFor ht)⟩
  · simp only [CstLexer.LexState.push, render_append, render_cons, render_nil,
      List.append_nil, List.length_append, length_lexeme hn, hi, h.i]
  · simp only [CstLexer.LexState.push, grammarTokens_push, hk, Bool.false_eq_true, if_false,
      htokens]
    refine List.rel_append h.tokens (.cons ⟨?_, ht⟩ .nil)
    simp only [length_lexeme hn, h.i]

theorem follows_flaw (hs : Lexer.step lib a c cs = .error e)
    (hf : l.lacks.isSome ∨ ¬ Readable lib ⟨l.kind, c :: cs.take l.more⟩) :
    Follows lib a b c cs l := by
  refine .inr ⟨⟨e, scan_error hs⟩, fun hclean => ?_⟩
  rcases hf with hf | hf
  · obtain ⟨message, hm⟩ := Option.isSome_iff_exists.mp hf
    have := hclean.errors
    simp [CstLexer.LexState.push, hm] at this
  · exact hf (hclean.readable _ (List.mem_append_right _ List.mem_cons_self))

theorem step_blank (hw : isWhitespace c = true) : Lexer.step lib a c cs = .ok (a.skip 1, 0) := by
  rw [Lexer.step, if_pos hw]

theorem skip_skip (a : Lexer.LexState F) (m n : Nat) : (a.skip m).skip n = a.skip (m + n) := by
  rw [Lexer.LexState.skip, Lexer.LexState.skip, Lexer.LexState.skip, Nat.add_assoc]

theorem scan_blanks (a : Lexer.LexState F) (cs : List Char) (p : Char → Bool)
    (hp : ∀ c, p c = true → isWhitespace c = true) :
    Lib.scan (Lexer.step lib) a cs =
      Lib.scan (Lexer.step lib) (a.skip (runLength p cs)) (cs.drop (runLength p cs)) := by
  induction cs generalizing a with
  | nil => rfl
  | cons c cs ih =>
    cases hc : p c with
    | true =>
      rw [scan_ok (step_blank (hp c hc)), List.drop_zero, ih, runLength_cons hc, skip_skip,
        Nat.add_comm 1, List.drop_succ_cons]
    | false =>
      have h0 : runLength p (c :: cs) = 0 := by
        rw [runLength, List.takeWhile_cons_of_neg (by simp [hc]), List.length_nil]
      rw [h0]
      rfl

theorem follows_blank (h : Twin lib a b) (hw : isWhitespace c = true) :
    Follows lib a b c cs (lexeme lib b c cs) := by
  rw [lexeme]
  simp only [if_pos hw]
  split
  · exact follows_trivia h rfl (Nat.zero_le _) (scan_ok (step_blank hw))
  · refine follows_trivia h rfl (runLength_le _ _) ?_
    rw [scan_ok (step_blank hw), List.drop_zero, scan_blanks (a.skip 1) cs
      (fun d => isWhitespace d && d != '\n') fun d hd => (Bool.and_eq_true_iff.mp hd).1, skip_skip,
      Nat.add_comm 1]

theorem follows_lineComment (h : Twin lib a b) (hc : c = '/' ∧ cs.head? = some '/') :
    Follows lib a b c cs
      { kind := .lineComment, more := 1 + runLength (· != '\n') cs.tail } := by
  obtain ⟨rfl, hd⟩ := hc
  obtain ⟨cs', rfl⟩ : ∃ cs', cs = '/' :: cs' := List.head?_eq_some_iff.mp hd
  refine follows_trivia h rfl ?_ (scan_ok ?_)
  · rw [List.tail_cons, List.length_cons, Nat.add_comm]
    exact Nat.succ_le_succ (runLength_le _ _)
  · rw [Lexer.step, if_neg (by decide), if_pos ⟨rfl, rfl⟩]

theorem follows_blockComment (h : Twin lib a b) (hc : c = '/' ∧ cs.head? = some '*') :
    Follows lib a b c cs {
      kind := .blockComment
      more := 1 + (scanBlockEnd cs.tail).1
      lacks := unterminated errUnterminatedComment (scanBlockEnd cs.tail).2 } := by
  obtain ⟨rfl, hd⟩ := hc
  obtain ⟨cs', rfl⟩ : ∃ cs', cs = '*' :: cs' := List.head?_eq_some_iff.mp hd
  have hskip := skipBlock_eq cs'
  rw [List.tail_cons]
  cases hb : (scanBlockEnd cs').2 with
  | true =>
    rw [hb, if_pos rfl] at hskip
    have hstep : Lexer.step lib a '/' ('*' :: cs') =
        .ok (a.skip ((scanBlockEnd cs').1 + 2), (scanBlockEnd cs').1 + 1) := by
      rw [Lexer.step, if_neg (by decide), if_neg (by simp), if_pos ⟨rfl, rfl⟩]
      simp only [List.tail_cons, hskip]
    refine follows_trivia h rfl ?_ (scan_ok (hstep.trans ?_))
    · rw [List.length_cons, Nat.add_comm]
      exact Nat.succ_le_succ (scanBlockEnd_le _)
    · rw [Nat.add_comm 1]
  | false =>
    rw [hb, if_neg Bool.false_ne_true] at hskip
    have hstep : Lexer.step lib a '/' ('*' :: cs') =
        a.fail errUnterminatedComment (2 + (cs'.length - 1)) := by
      rw [Lexer.step, if_neg (by decide), if_neg (by simp), if_pos ⟨rfl, rfl⟩]
      simp only [List.tail_cons, hskip]
    exact follows_flaw hstep (.inl rfl)

theorem ne_of_class {p : Char → Bool} (hc : p c = true) (hx : p x = false) : c ≠ x := by
  rintro rfl
  rw [hc] at hx
  cases hx

def special : List Char :=
  ['#', '{', '}', quotation, apostrophe, backtick] ++ symbolTable.map Prod.fst

theorem step_other (lib : TextLib F) (a : Lexer.LexState F) (cs : List Char)
    (hw : isWhitespace c = false) (hs : c ∉ symbolTable.map Prod.fst) :
    Lexer.step lib a c cs = Lexer.stepOther lib a c cs := by
  have hslash : c ≠ '/' := by
    rintro rfl
    exact hs (by decide)
  rw [Lexer.step, if_neg (by simp [hw]), if_neg fun h => hslash h.1, if_neg fun h => hslash h.1,
    symbol_of_not_mem hs]

theorem step_special (lib : TextLib F) (a : Lexer.LexState F) (cs : List Char) {p : Char → Bool}
    (hp : ∀ x ∈ special, p x = false) (hc : p c = true)
    (hw : isWhitespace c = false) : Lexer.step lib a c cs =
      if c.isDigit then
        match parseNumberText lib ((c :: cs).take (numberLength (c :: cs)).1) with
        | .ok lit => .ok (a.push (numLitToken lit) (numberLength (c :: cs)).1,
            (numberLength (c :: cs)).1 - 1)
        | .error e => a.fail (e.message (numberLength (c :: cs)).2) (numberLength (c :: cs)).1
      else if lib.isWordStart c then
        .ok (a.push (word ((c :: cs).take (runLength lib.isWordRest (c :: cs))))
          (runLength lib.isWordRest (c :: cs)), runLength lib.isWordRest (c :: cs) - 1)
      else a.fail (unexpected c) 1 := by
  have hne : ∀ x ∈ special, c ≠ x := fun x hx => ne_of_class hc (hp x hx)
  have hsym : c ∉ symbolTable.map Prod.fst := fun hmem =>
    hne c (List.mem_append_right _ hmem) rfl
  rw [step_other lib a cs hw hsym, stepOther]
  refine (if_neg (hne '#' (by decide))).trans ((if_neg (hne '{' (by decide))).trans
    ((if_neg (hne '}' (by decide))).trans ((if_neg ?_).trans
      (if_neg (hne backtick (by decide))))))
  exact not_or.mpr ⟨hne quotation (by decide), hne apostrophe (by decide)⟩

theorem special_ascii (h : x ∈ special) :
    x.toNat < 128 ∧ x.isAlpha = false ∧ x ≠ '_' ∧ x.isDigit = false := by
  have hall : (special.all fun x =>
      decide (x.toNat < 128 ∧ x.isAlpha = false ∧ x ≠ '_' ∧ x.isDigit = false)) = true := by decide
  exact of_decide_eq_true (List.all_eq_true.mp hall x h)

theorem follows_number (h : Twin lib a b) (hw : isWhitespace c = false) (hd : c.isDigit = true) :
    Follows lib a b c cs { kind := .number, more := scanNumber (c :: cs) - 1 } := by
  have hstep := step_special lib a cs (p := Char.isDigit)
    (fun x hx => (special_ascii hx).2.2.2) hd hw
  obtain ⟨m, hm⟩ := Nat.exists_eq_succ_of_ne_zero (@scanNumber_pos c cs hd).ne'
  have hle := scanNumber_le (c :: cs)
  rw [hm, List.length_cons] at hle
  rw [if_pos hd, numberLength_eq, hm, List.take_succ_cons] at hstep
  rw [hm, Nat.succ_sub_one]
  cases hp : parseNumberText lib (c :: cs.take m) with
  | ok lit =>
    rw [hp] at hstep
    exact follows_token h rfl (Nat.le_of_succ_le_succ hle) hstep (by rw [tokFor, hp]; rfl) rfl rfl
      h.braceDepth h.templateStack
  | error e =>
    rw [hp] at hstep
    refine follows_flaw hstep (.inr fun hr => ?_)
    obtain ⟨lit, hlit⟩ := hr.2 rfl
    rw [show parseNumberText lib (c :: cs.take m) = .ok lit from hlit] at hp
    cases hp

theorem wordStart_special (lib : TextLib F) (x : Char) (hx : x ∈ special) :
    lib.isWordStart x = false := by
  obtain ⟨hlt, halpha, hne, -⟩ := special_ascii hx
  rw [TextLib.isWordStart, lib.alphabetic_ascii x hlt, halpha, Bool.false_or]
  exact beq_eq_false_iff_ne.mpr hne

theorem wordRest_of_start (h : TextLib.isWordStart lib c = true) : lib.isWordRest c = true := by
  rw [TextLib.isWordStart, Bool.or_eq_true] at h
  rw [TextLib.isWordRest, TextLib.isAlphanumeric, Bool.or_eq_true, Bool.or_eq_true]
  exact h.imp_left .inl

theorem keywords_agree : List.Forall₂ (fun (kw : List Char × Tok F) (kk : List Char × SyntaxKind) =>
    kw.1 = kk.1 ∧ symbolTok kk.2 = some kw.2 ∧ NoBrace kk.2) keywords SyntaxKind.keywords := by
  unfold keywords SyntaxKind.keywords NoBrace
  repeat' first
    | exact List.Forall₂.nil
    | refine List.Forall₂.cons ⟨rfl, rfl, nofun, nofun, nofun⟩ ?_

theorem tokFor_symbol (h : symbolTok kind = some tok) : tokFor lib kind text = some tok := by
  cases kind <;> first | exact h | cases h

theorem nontrivia_symbol {tok : Tok F} (h : symbolTok kind = some tok) : kind.isTrivia = false := by
  cases kind <;> first | rfl | cases h

theorem push_quiet {tok : Tok F} (b : CstLexer.LexState) (text : List Char)
    (h : symbolTok kind = some tok) (hb : NoBrace kind) :
    (b.push kind text none).braceDepth = b.braceDepth ∧
      (b.push kind text none).templateStack = b.templateStack := by
  obtain ⟨h₁, h₂, h₃⟩ := hb
  cases kind
  all_goals
    first
    | exact ⟨rfl, rfl⟩
    | exact absurd rfl h₁
    | exact absurd rfl h₂
    | exact absurd rfl h₃
    | cases h

theorem word_cases (text : List Char) :
    (keywordKind text = none ∧ word (F := F) text = .ident text) ∨
    ∃ kind, keywordKind text = some kind ∧ symbolTok kind = some (word (F := F) text) ∧
      NoBrace kind := by
  rw [keywordKind, word]
  have htables := keywords_agree (F := F)
  generalize keywords = kws at htables
  generalize SyntaxKind.keywords = kks at htables
  induction htables with
  | nil => exact .inl ⟨rfl, rfl⟩
  | @cons kw kk kws kks hrow _ ih =>
    obtain ⟨hkw, htok, hb⟩ := hrow
    rw [List.find?_cons, List.find?_cons, hkw]
    cases kk.1 == text with
    | true => exact .inr ⟨kk.2, rfl, htok, hb⟩
    | false => exact ih

theorem follows_word (h : Twin lib a b) (hw : isWhitespace c = false) (hd : c.isDigit = false)
    (hc : lib.isWordStart c = true) :
    Follows lib a b c cs {
      kind := (keywordKind (c :: cs.take (runLength lib.isWordRest cs))).getD .ident
      more := runLength lib.isWordRest cs } := by
  have hstep := step_special lib a cs (wordStart_special lib) hc hw
  rw [if_neg (by simp [hd]), if_pos hc, runLength_cons (wordRest_of_start hc), List.take_succ_cons]
    at hstep
  have hle := runLength_le lib.isWordRest cs
  rcases word_cases (F := F) (c :: cs.take (runLength lib.isWordRest cs)) with
    ⟨hk, hword⟩ | ⟨kind, hk, hword, hb⟩
  · rw [hk]
    rw [hword] at hstep
    exact follows_token h rfl hle hstep rfl rfl rfl h.braceDepth h.templateStack
  · rw [hk]
    obtain ⟨hdepth, hstack⟩ :=
      push_quiet b (c :: cs.take (runLength lib.isWordRest cs)) hword hb
    refine follows_token h (nontrivia_symbol hword) hle hstep (tokFor_symbol hword) rfl rfl ?_ ?_
    · exact h.braceDepth.trans hdepth.symm
    · exact h.templateStack.trans (congrArg _ hstack.symm)

theorem take_dropLast {cs : List Char} (hn : n + 1 ≤ cs.length) :
    (cs.take (n + 1)).dropLast = cs.take n := by
  rw [List.dropLast_eq_take, List.length_take, Nat.min_eq_left hn, List.take_take,
    Nat.add_sub_cancel, Nat.min_eq_left (Nat.le_succ n)]

theorem follows_quoted (h : Twin lib a b) (hw : isWhitespace c = false)
    (hc : c = quotation ∨ c = apostrophe) :
    Follows lib a b c cs {
      kind := .str
      more := (scanStringEnd c cs).1
      lacks := unterminated errUnterminatedString (scanStringEnd c cs).2 } := by
  have hq : c ≠ backslash ∧ c ∉ symbolTable.map Prod.fst ∧ c ≠ '#' ∧ c ≠ '{' ∧ c ≠ '}' := by
    rcases hc with rfl | rfl <;> decide
  obtain ⟨hb, hs, h₁, h₂, h₃⟩ := hq
  have hstep := step_other lib a cs hw hs
  rw [stepOther, if_neg h₁, if_neg h₂, if_neg h₃, if_pos hc] at hstep
  have hle := scanStringEnd_le c cs
  cases ht : (scanStringEnd c cs).2 with
  | true =>
    obtain ⟨n, hn, hl⟩ := lexQuoted_closed hb ht
    rw [hl] at hstep
    rw [hn] at hle ⊢
    refine follows_token h rfl hle hstep ?_ rfl rfl h.braceDepth h.templateStack
    rw [tokFor, List.tail_cons, take_dropLast hle]
  | false =>
    rw [lexQuoted_open hb ht] at hstep
    exact follows_flaw hstep (.inl rfl)

theorem take_dropLast_dropLast {cs : List Char} (hn : n + 2 ≤ cs.length) :
    (cs.take (n + 2)).dropLast.dropLast = cs.take n := by
  rw [take_dropLast hn, take_dropLast (Nat.le_of_succ_le hn)]

theorem follows_template (h : Twin lib a b) :
    Follows lib a b backtick cs {
      kind := (scanTemplateChunk true cs).1
      more := (scanTemplateChunk true cs).2.1
      lacks := unterminated errUnterminatedTemplate (scanTemplateChunk true cs).2.2 } := by
  have hstep := step_other lib a cs (c := backtick) (by decide) (by decide)
  rw [stepOther, if_neg (by decide), if_neg (by decide), if_neg (by decide), if_neg (by decide),
    if_pos rfl] at hstep
  have hle := scanChunk_le cs
  have hstop := scanChunk_stop cs
  unfold scanTemplateChunk
  rcases hs : scanChunk cs with ⟨n, _ | _ | _⟩ <;> rw [hs] at hstop hle
  · obtain ⟨m, rfl, hl⟩ := hstop
    rw [hl] at hstep
    refine follows_token h rfl hle hstep ?_ rfl rfl h.braceDepth h.templateStack
    simp only [tokFor, if_true, List.tail_cons, take_dropLast hle]
  · obtain ⟨m, rfl, hl⟩ := hstop
    rw [hl] at hstep
    refine follows_token h rfl hle hstep ?_ rfl rfl h.braceDepth ?_
    · simp only [tokFor, if_true, List.tail_cons, take_dropLast_dropLast hle]
    · exact congrArg₂ List.cons h.braceDepth h.templateStack
  · rw [show lexTemplateChunk cs = none from hstop] at hstep
    exact follows_flaw hstep (.inl rfl)

theorem head_templateStack (h : Twin lib a b) :
    a.templateStack.head? = some a.braceDepth ↔
      b.templateStack.head?.map Prod.fst = some b.braceDepth := by
  rw [h.templateStack, h.braceDepth, List.head?_map]

theorem follows_resume (h : Twin lib a b)
    (hd : b.templateStack.head?.map Prod.fst = some b.braceDepth) :
    Follows lib a b '}' cs {
      kind := (scanTemplateChunk false cs).1
      more := (scanTemplateChunk false cs).2.1
      lacks := unterminated errUnterminatedTemplate (scanTemplateChunk false cs).2.2 } := by
  have hstep := step_other lib a cs (c := '}') (by decide) (by decide)
  rw [stepOther, if_neg (by decide), if_neg (by decide), if_pos rfl,
    if_pos ((head_templateStack h).mpr hd)] at hstep
  have hle := scanChunk_le cs
  have hstop := scanChunk_stop cs
  unfold scanTemplateChunk
  rcases hs : scanChunk cs with ⟨n, _ | _ | _⟩ <;> rw [hs] at hstop hle
  · obtain ⟨m, rfl, hl⟩ := hstop
    rw [hl] at hstep
    refine follows_token h rfl hle hstep ?_ rfl rfl h.braceDepth ?_
    · simp only [tokFor, Bool.false_eq_true, if_false, List.tail_cons, take_dropLast hle]
    · exact (congrArg List.tail h.templateStack).trans (List.map_tail).symm
  · obtain ⟨m, rfl, hl⟩ := hstop
    rw [hl] at hstep
    refine follows_token h rfl hle hstep ?_ rfl rfl h.braceDepth ?_
    · simp only [tokFor, Bool.false_eq_true, if_false, List.tail_cons, take_dropLast_dropLast hle]
    · -- the depth taken off is the one put back
      have hhead := (head_templateStack h).mpr hd
      obtain ⟨rest, hrest⟩ := List.head?_eq_some_iff.mp hhead
      have := h.templateStack
      rw [hrest] at this
      simp only [hrest, List.tail_cons]
      exact this
  · rw [show lexTemplateChunk cs = none from hstop] at hstep
    exact follows_flaw hstep (.inl rfl)

theorem matchOperator_length (h : matchOperator cs = some (kind, n)) : 0 < n ∧ n ≤ cs.length := by
  refine ⟨(matchOperator_spelled h).2, ?_⟩
  rw [matchOperator, Option.map_eq_some_iff] at h
  obtain ⟨op, hf, he⟩ := h
  obtain ⟨-, rfl⟩ := Prod.mk.inj he
  have hp := List.find?_some hf
  exact (List.isPrefixOf_iff_prefix.mp hp).length_le

theorem follows_symbol {tok : Tok F} (h : Twin lib a b) (hw : isWhitespace c = false)
    (h₁ : ¬ (c = '/' ∧ cs.head? = some '/')) (h₂ : ¬ (c = '/' ∧ cs.head? = some '*'))
    (hs : symbol c cs = some (tok, len)) :
    ∃ kind, matchOperator (c :: cs) = some (kind, len) ∧
      Follows lib a b c cs { kind, more := len - 1 } := by
  obtain ⟨kind, hm, ht, hb⟩ := symbol_some hs
  refine ⟨kind, hm, ?_⟩
  have hstep : Lexer.step lib a c cs = .ok (a.push tok len, len - 1) := by
    rw [Lexer.step, if_neg (by simp [hw]), if_neg h₁, if_neg h₂, hs]
  obtain ⟨hpos, hle⟩ := matchOperator_length hm
  obtain ⟨n, rfl⟩ := Nat.exists_eq_succ_of_ne_zero hpos.ne'
  obtain ⟨hdepth, hstack⟩ := push_quiet b (c :: cs.take n) ht hb
  refine follows_token h (nontrivia_symbol ht) (Nat.le_of_succ_le_succ hle) hstep (tokFor_symbol ht)
    rfl rfl ?_ ?_
  · exact h.braceDepth.trans hdepth.symm
  · exact h.templateStack.trans (congrArg _ hstack.symm)

theorem matchOperator_hash (cs : List Char) : matchOperator ('#' :: cs) =
    if cs.head? = some '{' then some (.hashLBrace, 2) else none := by
  have hops : opsAt '#' = [(['{'], .hashLBrace)] := by decide
  rw [matchOperator_at, hops, find?_cons_eq, isPrefixOf_one]
  by_cases hh : cs.head? = some '{'
  · rw [if_pos hh, if_pos (by simp [hh])]
    rfl
  · rw [if_neg hh, if_neg (by simp [hh])]
    rfl

theorem matchOperator_open (cs : List Char) : matchOperator ('{' :: cs) = some (.lBrace, 1) := by
  have hops : opsAt '{' = [([], .lBrace)] := by decide
  rw [matchOperator_at, hops, find?_cons_eq, List.isPrefixOf_nil_left, if_pos rfl]
  rfl

theorem matchOperator_close (cs : List Char) : matchOperator ('}' :: cs) = some (.rBrace, 1) := by
  have hops : opsAt '}' = [([], .rBrace)] := by decide
  rw [matchOperator_at, hops, find?_cons_eq, List.isPrefixOf_nil_left, if_pos rfl]
  rfl

theorem follows_open (h : Twin lib a b) :
    Follows lib a b '{' cs { kind := .lBrace, more := 0 } := by
  have hstep := step_other lib a cs (c := '{') (by decide) (by decide)
  rw [stepOther, if_neg (by decide), if_pos rfl] at hstep
  exact follows_token h rfl (Nat.zero_le _) hstep rfl rfl rfl
    (congrArg (· + 1) h.braceDepth) h.templateStack

theorem follows_close (h : Twin lib a b)
    (hd : ¬ b.templateStack.head?.map Prod.fst = some b.braceDepth) :
    Follows lib a b '}' cs { kind := .rBrace, more := 0 } := by
  have hstep := step_other lib a cs (c := '}') (by decide) (by decide)
  rw [stepOther, if_neg (by decide), if_neg (by decide), if_pos rfl,
    if_neg fun hhead => hd ((head_templateStack h).mp hhead)] at hstep
  exact follows_token h rfl (Nat.zero_le _) hstep rfl rfl rfl
    (congrArg (· - 1) h.braceDepth) h.templateStack

theorem follows_hash (h : Twin lib a b) : Follows lib a b '#' cs
    (match matchOperator ('#' :: cs) with
      | some (kind, n) => { kind, more := n - 1 }
      | none => { kind := .error, more := 0 }) := by
  have hstep := step_other lib a cs (c := '#') (by decide) (by decide)
  rw [stepOther, if_pos rfl] at hstep
  rw [matchOperator_hash]
  by_cases hd : cs.head? = some '{'
  · obtain ⟨cs', rfl⟩ := List.head?_eq_some_iff.mp hd
    exact follows_token h rfl (Nat.succ_le_succ (Nat.zero_le _)) hstep rfl rfl rfl
      (congrArg (· + 1) h.braceDepth) h.templateStack
  · rw [if_neg hd] at hstep ⊢
    exact follows_flaw hstep (.inr fun hr => hr.1 rfl)

theorem follows (h : Twin lib a b) (c : Char) (cs : List Char) :
    Follows lib a b c cs (lexeme lib b c cs) := by
  cases hw : isWhitespace c with
  | true => exact follows_blank h hw
  | false =>
    have hnl : c ≠ '\n' := by
      rintro rfl
      cases hw
    rw [lexeme, if_neg hnl, if_neg (by simp [hw])]
    by_cases hline : c = '/' ∧ cs.head? = some '/'
    · rw [if_pos hline]
      exact follows_lineComment h hline
    rw [if_neg hline]
    by_cases hblock : c = '/' ∧ cs.head? = some '*'
    · rw [if_pos hblock]
      exact follows_blockComment h hblock
    rw [if_neg hblock]
    by_cases hdigit : c.isDigit = true
    · rw [if_pos hdigit]
      exact follows_number h hw hdigit
    rw [if_neg hdigit]
    by_cases hword : lib.isWordStart c = true
    · rw [if_pos hword]
      exact follows_word h hw (by simpa using hdigit) hword
    rw [if_neg hword]
    by_cases hquote : c = quotation ∨ c = apostrophe
    · rw [if_pos hquote]
      exact follows_quoted h hw hquote
    rw [if_neg hquote]
    by_cases htick : c = backtick
    · rw [if_pos htick]
      subst htick
      exact follows_template h
    rw [if_neg htick]
    by_cases hresume : c = '}' ∧ b.templateStack.head?.map Prod.fst = some b.braceDepth
    · rw [if_pos hresume]
      obtain ⟨rfl, hdepth⟩ := hresume
      exact follows_resume h hdepth
    rw [if_neg hresume]
    by_cases hclose : c = '}'
    · subst hclose
      rw [matchOperator_close]
      exact follows_close h fun hdepth => hresume ⟨rfl, hdepth⟩
    by_cases hopen : c = '{'
    · subst hopen
      rw [matchOperator_open]
      exact follows_open h
    by_cases hhash : c = '#'
    · subst hhash
      exact follows_hash h
    cases hs : symbol (F := F) c cs with
    | some op =>
      obtain ⟨kind, hm, hf⟩ := follows_symbol h hw hline hblock hs
      rw [hm]
      exact hf
    | none =>
      have hmem := symbol_none hs
      rw [matchOperator_none hmem hhash hopen hclose]
      refine follows_flaw (e := ⟨unexpected c, ⟨a.i, a.i + 1⟩⟩) ?_ (.inr fun hr => hr.1 rfl)
      rw [step_other lib a cs hw hmem, stepOther, if_neg hhash, if_neg hopen, if_neg hclose,
        if_neg hquote, if_neg htick, if_neg hdigit, if_neg hword]
      rfl

theorem Clean.of_step (h : Clean lib (b.push kind text lacks)) : Clean lib b where
  errors := (List.append_eq_nil_iff.mp h.errors).1
  readable t ht := h.readable t (List.mem_append_left _ ht)

theorem Clean.of_scan (h : Clean lib (Lib.scan (CstLexer.step lib) b cs)) : Clean lib b :=
  Lib.scan_induct (P := fun st _ => Clean lib st → Clean lib b)
    (fun _ _ _ ih hst => ih hst.of_step) (fun hb => hb) h

theorem twin_scan (h : Twin lib a b) (cs : List Char) :
    (∃ a', Lib.scan (Lexer.step lib) a cs = .ok a' ∧
      Twin lib a' (Lib.scan (CstLexer.step lib) b cs)) ∨
    ((∃ e, Lib.scan (Lexer.step lib) a cs = .error e) ∧
      ¬ Clean lib (Lib.scan (CstLexer.step lib) b cs)) := by
  generalize hn : cs.length = n
  induction n using Nat.strongRecOn generalizing a b cs with
  | ind n ih =>
    cases cs with
    | nil => exact .inl ⟨a, rfl, h⟩
    | cons c cs =>
      have hcst : Lib.scan (CstLexer.step lib) b (c :: cs) =
          Lib.scan (CstLexer.step lib) (CstLexer.step lib b c cs).1
            (cs.drop (lexeme lib b c cs).more) := Lib.scan_cons
      rw [hcst]
      rcases follows h c cs with ⟨a', hs, ht⟩ | ⟨hs, hf⟩
      · rw [hs]
        refine ih _ ?_ ht _ rfl
        rw [List.length_cons] at hn
        rw [List.length_drop]
        omega
      · exact .inr ⟨hs, fun hclean => hf hclean.of_scan⟩

theorem twin_new : Twin lib (.new : Lexer.LexState F) (.new : CstLexer.LexState) where
  i := rfl
  braceDepth := rfl
  templateStack := rfl
  tokens := .nil
  clean := ⟨rfl, by simp [CstLexer.LexState.new]⟩

/-- The two lexers have the same tokens of every text that one of them reads. -/
theorem front_ends (lib : TextLib F) (src : List Char) :
    (∀ toks, lex lib src = .ok toks →
      ∃ body, toks = body ++ [⟨.eof, ⟨src.length, src.length⟩⟩] ∧
        List.Forall₂ (Agrees lib) (grammarTokens (lexWithErrors lib src).1) body ∧
        (∀ t ∈ (lexWithErrors lib src).1, t.kind ≠ .error) ∧
        (lexWithErrors lib src).2 = (lexAll lib src).unclosed) ∧
    ((lexWithErrors lib src).2 = [] → (∀ t ∈ (lexWithErrors lib src).1, Readable lib t) →
      ∃ toks, lex lib src = .ok toks) := by
  have htwin := twin_scan (twin_new : Twin lib .new .new) src
  constructor
  · intro toks hlex
    rcases htwin with ⟨a', hs, ht⟩ | ⟨⟨e, hs⟩, -⟩
    · rw [lex, hs] at hlex
      refine ⟨a'.tokens, (Except.ok.inj hlex).symm, ht.tokens, fun t hmem => ?_, ?_⟩
      · exact (ht.clean.readable t hmem).1
      · exact (congrArg (· ++ _) ht.clean.errors).trans (List.nil_append _)
    · rw [lex, hs] at hlex
      cases hlex
  · intro herrors hreadable
    rcases htwin with ⟨a', hs, -⟩ | ⟨-, hclean⟩
    · exact ⟨_, congrArg (Except.map _) hs⟩
    · exact absurd ⟨(List.append_eq_nil_iff.mp herrors).1, hreadable⟩ hclean

example : (lex TextLib.ascii [backtick, 'a', '$', '{', 'x', '}', backtick]).isOk = true ∧
    (lexWithErrors TextLib.ascii [backtick, 'a', '$', '{', 'x']).2 =
      [⟨errUnterminatedTemplate, 0⟩] := by decide

end AScript.Syntax
