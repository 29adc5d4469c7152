import AScript.Stdlib.SemverOrder
import Mathlib.Order.Interval.Set.Defs

namespace AScript.Stdlib.Semver

open AScript.Lib

inductive Form
  | caret (p : Partial)
  | tilde (p : Partial)
  | cmp (op : Op) (p : Partial)
  | plain (p : Partial)

/-- One alternative of a range. -/
inductive Clause
  | hyphen (low high : Partial)
  | all (forms : List Form)

abbrev Triple := ℕ × ℕ × ℕ

def release : Triple → Rank
  | (a, b, c) => rankAt a b c ⊤

def below : Option Triple → Set Rank
  | some t => Set.Iio (release t)
  | none => Set.Ici (release (0, 0, 0))

namespace Partial

def low (p : Partial) : Rank := (floor p).rank

def lowRelease (p : Partial) : Rank :=
  release ((p.major.getD 0).toNat, (p.minor.getD 0).toNat, (p.patch.getD 0).toNat)

def next (p : Partial) : Option Triple :=
  match p.major, p.minor, p.patch with
  | none, _, _ => none
  | some a, none, _ => some (a.toNat + 1, 0, 0)
  | some a, some b, none => some (a.toNat, b.toNat + 1, 0)
  | some a, some b, some c => some (a.toNat, b.toNat, c.toNat + 1)

def caretNext (p : Partial) : Option Triple :=
  match p.major, p.minor, p.patch with
  | none, _, _ => none
  | some a, none, _ => some (a.toNat + 1, 0, 0)
  | some a, some b, none => some (if a ≠ 0 then (a.toNat + 1, 0, 0) else (0, b.toNat + 1, 0))
  | some a, some b, some c =>
    some (if a ≠ 0 then (a.toNat + 1, 0, 0) else if b ≠ 0 then (0, b.toNat + 1, 0)
      else (0, 0, c.toNat + 1))

def tildeNext (p : Partial) : Option Triple :=
  match p.major, p.minor with
  | none, _ => none
  | some a, none => some (a.toNat + 1, 0, 0)
  | some a, some b => some (a.toNat, b.toNat + 1, 0)

def isFull (p : Partial) : Bool := p.patch.isSome

def versions (p : Partial) : Set Rank :=
  if p.isFull then {p.low} else Set.Ici p.lowRelease ∩ below p.next

end Partial

def Form.interval : Form → Set Rank
  | .caret p => Set.Ici p.low ∩ below p.caretNext
  | .tilde p => Set.Ici p.low ∩ below p.tildeNext
  | .plain p => p.versions
  | .cmp .eq p => p.versions
  | .cmp .gte p => Set.Ici p.low
  | .cmp .lt p => Set.Iio p.low
  | .cmp .gt p =>
    if p.isFull then Set.Ioi p.low
    else match p.next with
      | some t => Set.Ici (release t)
      | none => ∅
  | .cmp .lte p => if p.isFull then Set.Iic p.low else below p.next

def Clause.interval : Clause → Set Rank
  | .hyphen low high =>
    Set.Ici low.low ∩ if high.isFull then Set.Iic high.low else below high.next
  | .all forms => {r | ∀ f ∈ forms, r ∈ f.interval}

def readForm (tok : Text) : Except String Form :=
  let tok := trim tok
  if tok.isEmpty then .error "empty comparator"
  else if workspaceProtocol.isPrefixOf tok || npmProtocol.isPrefixOf tok then
    .error (quoted "unsupported range protocol in" tok)
  else
    match stripPrefix ['^'] tok with
    | some rest => (parsePartial rest).map .caret
    | none =>
      match stripPrefix ['~'] tok with
      | some rest => (parsePartial ((stripPrefix ['>'] rest).getD rest)).map .tilde
      | none =>
        match stripOperator tok with
        | some (op, rest) => (parsePartial rest).map (.cmp op)
        | none => (parsePartial tok).map .plain

def anything : Form := .plain { major := none, minor := none, patch := none, pre := [] }

def readClause (part : Text) : Except String Clause :=
  let part := trim part
  if part.isEmpty then .ok (.all [anything])
  else
    let toks := splitWhitespace part
    match toks.idxOf? ['-'] with
    | some i =>
      match toks.take i, toks.drop (i + 1) with
      | [lowTok], [highTok] => do return .hyphen (← parsePartial lowTok) (← parsePartial highTok)
      | _, _ => .error (quoted "malformed hyphen range" part)
    | none => do
      let forms ← toks.mapM readForm
      return .all (if forms.isEmpty then [anything] else forms)

def readRange (input : Text) : Except String (List Clause) :=
  (splitBars (trim input)).mapM fun orPart => readClause (trim orPart)

def Form.desugar (checked : Bool) : Form → Except Failure CompSet
  | .caret p => desugarCaret checked p
  | .tilde p => desugarTilde checked p
  | .cmp op p => .ok [{ op, bound := floor p }]
  | .plain p => desugarPartial checked p

def Clause.desugar (checked : Bool) : Clause → Except Failure CompSet
  | .hyphen low high => do return [{ op := .gte, bound := floor low }, ← hyphenHigh checked high]
  | .all forms => do return (← forms.mapM (Form.desugar checked)).flatten

theorem orMalformed_map (r : Except String α) (f : α → β) (g : β → Except Failure γ) :
    orMalformed (r.map f) >>= g = orMalformed r >>= fun a => g (f a) := by
  cases r <;> rfl

theorem parseComparator_eq (checked : Bool) (tok : Text) :
    parseComparator checked tok = orMalformed (readForm tok) >>= Form.desugar checked := by
  unfold parseComparator readForm
  dsimp only
  split
  · rfl
  split
  · rfl
  cases stripPrefix ['^'] (trim tok) with
  | some rest =>
    dsimp only
    rw [orMalformed_map]
    rfl
  | none =>
    cases stripPrefix ['~'] (trim tok) with
    | some rest =>
      dsimp only
      rw [orMalformed_map]
      rfl
    | none =>
      rcases stripOperator (trim tok) with _ | ⟨op, rest⟩
      · dsimp only
        rw [orMalformed_map]
        rfl
      · dsimp only
        rw [orMalformed_map]
        rfl

theorem mapM_parse {read : α → Except String β} {parse : α → Except Failure γ}
    {desugar : β → Except Failure γ} (hparse : ∀ a b, read a = .ok b → parse a = desugar b)
    {l : List α} {bs : List β} (h : l.mapM read = .ok bs) : l.mapM parse = bs.mapM desugar := by
  induction l generalizing bs with
  | nil =>
    cases h
    rfl
  | cons a l ih =>
    rw [List.mapM_cons] at h ⊢
    cases hb : read a with
    | error e =>
      rw [hb] at h
      cases h
    | ok b =>
      rw [hb] at h
      cases hbs : l.mapM read with
      | error e =>
        rw [hbs] at h
        cases h
      | ok bs' =>
        rw [hbs] at h
        cases h
        rw [List.mapM_cons, hparse a b hb, ih hbs]

theorem parseComparator_ok (checked : Bool) (tok : Text) (f : Form) (h : readForm tok = .ok f) :
    parseComparator checked tok = f.desugar checked := by
  rw [parseComparator_eq, h]
  rfl

theorem desugar_ne_nil (h : Form.desugar checked f = .ok cs) : cs ≠ [] := by
  cases f with
  | caret p =>
    obtain ⟨upper, -, h⟩ := ok_bind h
    rw [← Except.ok.inj h]
    exact List.cons_ne_nil _ _
  | tilde p =>
    obtain ⟨upper, -, h⟩ := ok_bind h
    rw [← Except.ok.inj h]
    exact List.cons_ne_nil _ _
  | cmp op p =>
    rw [← Except.ok.inj h]
    exact List.cons_ne_nil _ _
  | plain p =>
    rw [Form.desugar, desugarPartial] at h
    split at h
    · rw [← Except.ok.inj h]
      exact List.cons_ne_nil _ _
    · obtain ⟨upper, -, h⟩ := ok_bind h
      rw [← Except.ok.inj h]
      exact List.cons_ne_nil _ _
    · obtain ⟨upper, -, h⟩ := ok_bind h
      rw [← Except.ok.inj h]
      exact List.cons_ne_nil _ _
    · rw [← Except.ok.inj h]
      exact List.cons_ne_nil _ _

theorem flatten_isEmpty {forms : List Form} (hne : forms ≠ [])
    (h : forms.mapM (Form.desugar checked) = .ok sets) : sets.flatten.isEmpty = false := by
  cases forms with
  | nil => exact absurd rfl hne
  | cons f forms =>
    rw [List.mapM_cons] at h
    obtain ⟨cs, hcs, h⟩ := ok_bind h
    obtain ⟨sets', -, h⟩ := ok_bind h
    rw [← Except.ok.inj h, List.flatten_cons, List.isEmpty_eq_false_iff]
    exact List.append_ne_nil_of_left_ne_nil (desugar_ne_nil hcs) _

theorem parseComparatorSet_eq (checked : Bool) (h : readClause part = .ok clause) :
    parseComparatorSet checked part = clause.desugar checked := by
  unfold readClause at h
  unfold parseComparatorSet
  dsimp only at h ⊢
  by_cases hempty : (trim part).isEmpty = true
  · rw [if_pos hempty] at h ⊢
    rw [← Except.ok.inj h]
    rfl
  rw [if_neg hempty] at h ⊢
  cases hi : (splitWhitespace (trim part)).idxOf? ['-'] with
  | some i =>
    rw [hi] at h
    dsimp only at h ⊢
    generalize (splitWhitespace (trim part)).take i = before at h ⊢
    generalize (splitWhitespace (trim part)).drop (i + 1) = rest at h ⊢
    match before, rest with
    | [lowTok], [highTok] =>
      obtain ⟨low, hlow, h⟩ := ok_bind h
      obtain ⟨high, hhigh, h⟩ := ok_bind h
      rw [← Except.ok.inj h]
      dsimp only
      rw [hlow, hhigh]
      rfl
    | [], _ => cases h
    | _ :: _ :: _, _ => cases h
    | [_], [] => cases h
    | [_], _ :: _ :: _ => cases h
  | none =>
    rw [hi] at h
    dsimp only at h ⊢
    obtain ⟨forms, hforms, h⟩ := ok_bind h
    rw [← Except.ok.inj h, mapM_parse (parseComparator_ok checked) hforms, Clause.desugar]
    cases forms with
    | nil => rfl
    | cons f forms =>
      rw [List.isEmpty_cons, if_neg Bool.false_ne_true]
      cases hs : (f :: forms).mapM (Form.desugar checked) with
      | error e => rfl
      | ok sets =>
        exact congrArg Except.ok (if_neg (by simp [flatten_isEmpty (List.cons_ne_nil _ _) hs]))

theorem splitBars_ne_nil (s : Text) : splitBars s ≠ [] := by
  unfold splitBars
  split
  · exact List.cons_ne_nil _ _
  · split <;> exact List.cons_ne_nil _ _
  · exact List.cons_ne_nil _ _

theorem parseRange_eq (checked : Bool) (h : readRange input = .ok clauses) :
    parseRange checked input = (clauses.mapM (Clause.desugar checked)).map Range.mk := by
  have hparse : ∀ part clause, readClause (trim part) = .ok clause →
      parseComparatorSet checked (trim part) = clause.desugar checked :=
    fun _ _ hread => parseComparatorSet_eq checked hread
  have hsets := mapM_parse hparse h
  rw [parseRange, hsets]
  cases hc : clauses.mapM (Clause.desugar checked) with
  | error e => rfl
  | ok sets =>
    have hlen := (mapM_length hc).trans (mapM_length h)
    refine congrArg Except.ok (congrArg Range.mk (if_neg ?_))
    rw [List.isEmpty_iff_length_eq_zero, hlen, List.length_eq_zero_iff]
    exact splitBars_ne_nil _

end AScript.Stdlib.Semver
