import AScript.Syntax.CstTree

namespace AScript.Syntax

def SameToken (lexed tokens : List LexToken) (i : Nat) : Prop :=
  render (tokens.take i) = render (lexed.take i) ∧ tokens[i]? = lexed[i]?

/-- Every error of the lexer is still there, at the token it was reported at. -/
def Parse.Attached (lexed : List LexToken × List LexError) (parse : Parse) : Prop :=
  parse.lexErrors = lexed.2 ∧ ∀ e ∈ lexed.2, SameToken lexed.1 parse.tokens e.token

def textBefore (ts : List LexToken) (i : Nat) : Nat := (render (ts.take i)).length

theorem textBefore_same (h : SameToken lexed ts i) : textBefore ts i = textBefore lexed i :=
  congrArg List.length h.1

section Parted

variable {front back : List LexToken} {t u v : LexToken}

theorem textBefore_succ_le : textBefore ts i ≤ textBefore ts (i + 1) := by
  rw [textBefore, textBefore, List.take_add, render_append, List.length_append]
  exact Nat.le_add_right _ _

theorem textBefore_succ (h : i < ts.length) :
    textBefore ts (i + 1) = textBefore ts i + ts[i].text.length := by
  rw [textBefore, List.take_succ_eq_append_getElem h, render_append, List.length_append,
    render_cons, render_nil, List.append_nil, textBefore]

theorem textBefore_cons : textBefore (t :: ts) (i + 1) = t.text.length + textBefore ts i := by
  rw [textBefore, List.take_succ_cons, render_cons, List.length_append, textBefore]

theorem textBefore_append_right : textBefore (front ++ ts) (front.length + i) =
    (render front).length + textBefore ts i := by
  rw [textBefore, List.take_length_add_append, render_append, List.length_append, textBefore]

theorem textBefore_append_left (h : i ≤ front.length) :
    textBefore (front ++ ts) i = textBefore front i := by
  rw [textBefore, List.take_append_of_le_length h, textBefore]

theorem textBefore_one : textBefore (t :: ts) 1 = t.text.length := textBefore_cons

theorem textBefore_parted (ht : t.text.length = u.text.length + v.text.length) (hv : v.text ≠ [])
    (hs : ∀ w ∈ back, w.text ≠ []) (hj : j < (front ++ t :: back).length)
    (hij : front.length < j) :
    textBefore (front ++ u :: v :: back) j < textBefore (front ++ t :: back) j := by
  obtain ⟨i, rfl⟩ := Nat.exists_eq_add_of_lt hij
  have hvl := List.length_pos_iff.mpr hv
  rw [Nat.add_assoc, textBefore_append_right, textBefore_append_right]
  cases i with
  | zero =>
    rw [Nat.zero_add, textBefore_one, textBefore_one]
    omega
  | succ i =>
    have hi : i < back.length := by
      rw [List.length_append, List.length_cons] at hj
      omega
    have hw := List.length_pos_iff.mpr (hs _ (List.getElem_mem hi))
    rw [textBefore_cons, textBefore_cons, textBefore_cons, textBefore_succ hi]
    omega

theorem textBefore_parted_le (ht : t.text.length = u.text.length + v.text.length) :
    textBefore (front ++ u :: v :: back) j ≤ textBefore (front ++ t :: back) j := by
  rcases Nat.lt_or_ge front.length j with hij | hij
  · obtain ⟨i, rfl⟩ := Nat.exists_eq_add_of_lt hij
    rw [Nat.add_assoc, textBefore_append_right, textBefore_append_right]
    cases i with
    | zero =>
      rw [Nat.zero_add, textBefore_one, textBefore_one]
      omega
    | succ i =>
      rw [textBefore_cons, textBefore_cons, textBefore_cons]
      have := @textBefore_succ_le back i
      omega
  · rw [textBefore_append_left hij, textBefore_append_left hij]

theorem sameToken_parted (h : SameToken lexed (front ++ t :: back) i) (hi : i < front.length) :
    SameToken lexed (front ++ us) i := by
  rw [SameToken, List.take_append_of_le_length hi.le, List.getElem?_append_left hi] at h ⊢
  exact h

end Parted

namespace Parser

def SparesErrors (p : Parser) : Op → Prop
  | .splitShrForType => p.current = .shr → ∀ ti, p.nontrivia[p.pos]? = some ti →
      ∀ e ∈ p.lexErrors, e.token < ti
  | _ => True

/-- So does every call of a run. -/
def RunSparesErrors (p : Parser) : List Op → Prop
  | [] => True
  | op :: ops => p.SparesErrors op ∧ ∀ q, p.apply op = some q → RunSparesErrors q ops

variable {p q : Parser} {op : Op}

theorem apply_other (ha : p.apply op = some q) (hop : op ≠ .splitShrForType) :
    q.tokens = p.tokens ∧ q.lexErrors = p.lexErrors := by
  have hbump : ∀ kind, (p.bumpRemap kind).tokens = p.tokens ∧
      (p.bumpRemap kind).lexErrors = p.lexErrors := by
    intro kind
    unfold bumpRemap
    split <;> exact ⟨rfl, rfl⟩
  cases op with
  | start =>
    cases ha
    exact ⟨rfl, rfl⟩
  | bump =>
    cases ha
    exact hbump _
  | bumpRemap kind =>
    simp only [Parser.apply] at ha
    split at ha <;> cases ha
    exact hbump kind
  | splitShrForType => exact absurd rfl hop
  | complete marker kind =>
    simp only [Parser.apply] at ha
    split at ha <;> cases ha
    exact ⟨rfl, rfl⟩
  | precede cm =>
    simp only [Parser.apply] at ha
    split at ha <;> cases ha
    exact ⟨rfl, rfl⟩
  | error message =>
    cases ha
    exact ⟨rfl, rfl⟩

theorem apply_lexErrors (h : Sound src p) (ha : p.apply op = some q) :
    q.lexErrors = p.lexErrors := by
  by_cases hop : op = .splitShrForType
  · subst hop
    cases ha
    rcases h.split with ⟨-, hp⟩ | ⟨before, after, -, -, -, -, hp⟩ <;> rw [hp]
  · exact (apply_other ha hop).2

theorem textBefore_apply (h : Sound src p) (ha : p.apply op = some q) (i : Nat) :
    textBefore q.tokens i ≤ textBefore p.tokens i := by
  by_cases hop : op = .splitShrForType
  · subst hop
    cases ha
    rcases h.split with ⟨-, hp⟩ | ⟨before, after, htok, -, -, -, hp⟩
    · rw [hp]
    · rw [hp, htok]
      exact textBefore_parted_le rfl
  · rw [(apply_other ha hop).1]

theorem textBefore_run (h : Sound src p) (hr : p.run ops = some q) (i : Nat) :
    textBefore q.tokens i ≤ textBefore p.tokens i := by
  induction ops generalizing p with
  | nil =>
    cases hr
    exact Nat.le_refl _
  | cons op ops ih =>
    obtain ⟨p', ha, hr⟩ := Option.bind_eq_some_iff.mp hr
    exact Nat.le_trans (ih (h.apply ha) hr) (textBefore_apply h ha i)

theorem run_lexErrors (h : Sound src p) (hr : p.run ops = some q) :
    q.lexErrors = p.lexErrors := by
  induction ops generalizing p with
  | nil =>
    cases hr
    rfl
  | cons op ops ih =>
    obtain ⟨p', ha, hr⟩ := Option.bind_eq_some_iff.mp hr
    exact (ih (h.apply ha) hr).trans (apply_lexErrors h ha)

structure ErrorsAt (lexed : List LexToken) (p : Parser) : Prop where
  same : ∀ e ∈ p.lexErrors, SameToken lexed p.tokens e.token
  flagged : ∀ e ∈ p.lexErrors, ∃ t, lexed[e.token]? = some t ∧ t.kind.Flagged

theorem ErrorsAt.apply (he : ErrorsAt lexed p) (h : Sound src p) (ha : p.apply op = some q)
    (hs : p.SparesErrors op) : ErrorsAt lexed q := by
  refine ⟨?_, by rw [apply_lexErrors h ha]; exact he.flagged⟩
  rw [apply_lexErrors h ha]
  intro e hmem
  by_cases hop : op = .splitShrForType
  · subst hop
    cases ha
    rcases h.split with ⟨-, hp⟩ | ⟨before, after, htok, hcur, hget, -, hp⟩
    · rw [hp]
      exact he.same e hmem
    · rw [hp]
      have hsame := he.same e hmem
      rw [htok] at hsame
      exact sameToken_parted hsame (hs hcur _ hget e hmem)
  · rw [(apply_other ha hop).1]
    exact he.same e hmem

theorem ErrorsAt.spares (he : ErrorsAt lexed p) (h : Sound src p) (ha : p.apply op = some q)
    (hq : ∀ e ∈ p.lexErrors, textBefore p.tokens e.token ≤ textBefore q.tokens e.token) :
    p.SparesErrors op := by
  by_cases hop : op = .splitShrForType
  · subst hop
    intro hcur ti hti e hmem
    cases ha
    obtain ⟨t, ht, hflag⟩ := he.flagged e hmem
    have hsame := (he.same e hmem).2
    have hlt : e.token < p.tokens.length := by
      rw [ht] at hsame
      exact (List.getElem?_eq_some_iff.mp hsame).1
    rcases h.split with ⟨hne, -⟩ | ⟨before, after, htok, -, hget, -, hp⟩
    · exact absurd hcur hne
    · obtain rfl : before.length = ti := Option.some.inj (hget.symm.trans hti)
      rcases Nat.lt_trichotomy e.token before.length with hlt' | heq | hgt
      · exact hlt'
      · rw [heq, htok, getElem?_middle] at hsame
        rw [heq] at ht
        rw [ht] at hsame
        cases hsame
        exact absurd rfl hflag.ne_shr
      · have hle := hq e hmem
        rw [hp, htok] at hle
        rw [htok] at hlt
        refine absurd hle (Nat.not_le.mpr (textBefore_parted rfl nofun (fun w hw => ?_) hlt hgt))
        exact (h.spelled w (by rw [htok]; simp [hw])).nonempty
  · cases op with
    | splitShrForType => exact absurd rfl hop
    | _ => trivial

theorem ErrorsAt.run (he : ErrorsAt lexed p) (h : Sound src p) (hr : p.run ops = some q) :
    ErrorsAt lexed q ↔ p.RunSparesErrors ops := by
  induction ops generalizing p with
  | nil =>
    cases hr
    exact ⟨fun _ => trivial, fun _ => he⟩
  | cons op ops ih =>
    obtain ⟨p', ha, hr⟩ := Option.bind_eq_some_iff.mp hr
    have hp' := h.apply ha
    constructor
    · intro hq
      have hspare : p.SparesErrors op := he.spares h ha fun e hmem => by
        have hmem' : e ∈ q.lexErrors := by
          rw [run_lexErrors hp' hr, apply_lexErrors h ha]
          exact hmem
        rw [textBefore_same (he.same e hmem), ← textBefore_same (hq.same e hmem')]
        exact textBefore_run hp' hr e.token
      refine ⟨hspare, fun p'' ha' => ?_⟩
      obtain rfl := Option.some.inj (ha.symm.trans ha')
      exact (ih (he.apply h ha hspare) hp' hr).mp hq
    · rintro ⟨hspare, hrest⟩
      exact (ih (he.apply h ha hspare) hp' hr).mpr (hrest p' ha)

end Parser

/-- What a parse reads from the source, and where it is split. -/
theorem cst_faithful (lib : TextLib F) (src : List Char) (ops : List Op)
    (h : parseWith lib src ops = some parse) :
    render (CstLexer.lexWithErrors lib src).1 = src ∧ parse.Faithful src ∧
      (parse.Attached (CstLexer.lexWithErrors lib src) ↔
        (Parser.new lib src).start.1.RunSparesErrors ops) := by
  obtain ⟨p, hr, hp⟩ := Option.bind_eq_some_iff.mp h
  split at hp
  · next hend =>
    cases hp
    have hstart := Parser.sound_start lib src
    have herr := Parser.run_lexErrors hstart hr
    refine ⟨CstLexer.render_lexed lib src, (hstart.run hr).finish hend, ?_⟩
    have he : Parser.ErrorsAt (CstLexer.lexWithErrors lib src).1 (Parser.new lib src).start.1 :=
      ⟨fun _ _ => ⟨rfl, rfl⟩, fun _ hmem => CstLexer.flagged_lexed hmem⟩
    rw [← he.run hstart hr]
    constructor
    · rintro ⟨-, hs⟩
      refine ⟨?_, ?_⟩ <;> rw [herr]
      · exact hs
      · exact he.flagged
    · intro hs
      refine ⟨herr, ?_⟩
      have := hs.same
      rwa [herr] at this
  · cases hp

instance : Decidable (SameToken lexed tokens i) := inferInstanceAs (Decidable (_ ∧ _))

instance (parse : Parse) : Decidable (parse.Attached lexed) := inferInstanceAs (Decidable (_ ∧ _))

/-- Nested type arguments, and a string without an end. -/
def nestedTypes : List Char :=
  ['l', 'e', 't', ' ', 'x', ':', ' ', 'a', '<', 'b', '<', 'c', '>', '>', ' ', '=', ' ', quotation]

/-- What the grammar calls there: a declaration with a type and a value. -/
def nestedOps : List Op := [
  .start, .bump, .bump, .bump,
  .start, .bump, .start, .bump, .start, .bump, .start, .bump, .start, .bump, .complete 13 (.node 1),
  .splitShrForType, .bump, .complete 11 (.node 2), .complete 9 (.node 3),
  .splitShrForType, .bump, .complete 7 (.node 2), .complete 5 (.node 3),
  .bump, .start, .bump, .complete 23 (.node 4), .complete 1 (.node 5)]

theorem nested_parses : (parseWith .ascii nestedTypes nestedOps).isSome = true := by
  decide

theorem cst_faithful_nested : ∃ parse, parseWith .ascii nestedTypes nestedOps = some parse ∧
    render (CstLexer.lexWithErrors .ascii nestedTypes).1 = nestedTypes ∧
    parse.Faithful nestedTypes ∧ (parse.Attached (CstLexer.lexWithErrors .ascii nestedTypes) ↔
      (Parser.new .ascii nestedTypes).start.1.RunSparesErrors nestedOps) := by
  obtain ⟨parse, h⟩ := Option.isSome_iff_exists.mp nested_parses
  exact ⟨parse, h, cst_faithful .ascii nestedTypes nestedOps h⟩

/-- The error of the string is left at the blank before it. -/
theorem nested_unattached : ∃ parse, parseWith .ascii nestedTypes nestedOps = some parse ∧
    ¬ parse.Attached (CstLexer.lexWithErrors .ascii nestedTypes) := by
  have h : (parseWith .ascii nestedTypes nestedOps).all (fun parse =>
      !decide (parse.Attached (CstLexer.lexWithErrors .ascii nestedTypes))) = true := by
    decide
  obtain ⟨parse, hp⟩ := Option.isSome_iff_exists.mp nested_parses
  refine ⟨parse, hp, ?_⟩
  rw [hp, Option.all_some] at h
  simpa using h

end AScript.Syntax
