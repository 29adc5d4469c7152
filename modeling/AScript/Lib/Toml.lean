import Mathlib.Algebra.Ring.Nat
import Mathlib.Data.List.Basic
import Mathlib.Tactic.Common

namespace AScript.Lib.Toml

abbrev Text := List Char

inductive Value
  | integer (n : Int)
  | string (s : Text)
  | array (items : List Value)
  | table (get : Text → Option Value)
  | other

abbrev Table := Text → Option Value

def quote : Char := Char.ofNat 34

def slash : Char := Char.ofNat 92

inductive Piece
  | raw (c : Char)
  | short (c : Char)
  | code (a b c d : Char)

def shortEscapes : List (Char × Char) := [
  ('b', Char.ofNat 8), ('t', Char.ofNat 9), ('n', Char.ofNat 10), ('f', Char.ofNat 12),
  ('r', Char.ofNat 13), (quote, quote), (slash, slash)]

def hexValue (c : Char) : Option Nat :=
  if c.isDigit then some (c.toNat - 48)
  else if 'a' ≤ c ∧ c ≤ 'f' then some (c.toNat - 87)
  else if 'A' ≤ c ∧ c ≤ 'F' then some (c.toNat - 55)
  else none

def codePoint (a b c d : Char) : Option Nat := do
  return (((← hexValue a) * 16 + (← hexValue b)) * 16 + (← hexValue c)) * 16 + (← hexValue d)

def scalar (n : Nat) : Option Char := if n.isValidChar then some (Char.ofNat n) else none

def isUnescaped (c : Char) : Bool :=
  c.toNat == 9 || (0x20 ≤ c.toNat && c.toNat != 0x22 && c.toNat != 0x5C && c.toNat != 0x7F)

namespace Piece

def render : Piece → Text
  | raw c => [c]
  | short c => [slash, c]
  | code a b c d => [slash, 'u', a, b, c, d]

def value : Piece → Option Char
  | raw c => if isUnescaped c then some c else none
  | short c => shortEscapes.lookup c
  | code a b c d => codePoint a b c d >>= scalar

def Shaped : Piece → Prop
  | raw c => c ≠ quote ∧ c ≠ slash ∧ c ≠ '\n'
  | p => p.value.isSome = true

end Piece

inductive Token
  | string (pieces : List Piece)
  | integer (n : Nat)

namespace Token

def render : Token → Text
  | string pieces => quote :: pieces.flatMap Piece.render ++ [quote]
  | integer n => Nat.toDigits 10 n

def value : Token → Option Value
  | string pieces => (pieces.mapM Piece.value).map .string
  | integer n => if n < 2 ^ 63 then some (.integer n) else none

def Shaped : Token → Prop
  | string pieces => ∀ p ∈ pieces, p.Shaped
  | integer _ => True

end Token

abbrev Pair := Text × Token

def renderPair (pair : Pair) : Text := pair.1 ++ [' ', '=', ' '] ++ pair.2.render

def isBare (c : Char) : Bool := c.isAlphanum || c == '_' || c == '-'

def BareKey (key : Text) : Prop := key ≠ [] ∧ ∀ c ∈ key, isBare c = true

structure Document where
  head : List Pair
  name : Text
  tables : List (List Pair)

namespace Document

def lines (doc : Document) : List Text :=
  doc.head.map renderPair ++
    doc.tables.flatMap fun t => [] :: (['[', '['] ++ doc.name ++ [']', ']']) :: t.map renderPair

def render (doc : Document) : Text := doc.lines.flatMap (· ++ ['\n'])

def pairsValue (pairs : List Pair) : Option (List (Text × Value)) :=
  pairs.mapM fun (key, token) => token.value.map (key, ·)

def tableOf (pairs : List (Text × Value)) : Table := fun key => pairs.lookup key

def withArray (head : List (Text × Value)) (name : Text) (tables : List (List (Text × Value))) :
    Table :=
  tableOf (head ++ if tables = [] then [] else
    [(name, .array (tables.map fun t => .table (tableOf t)))])

def value (doc : Document) : Option Table := do
  return withArray (← pairsValue doc.head) doc.name (← doc.tables.mapM pairsValue)

structure Shaped (doc : Document) : Prop where
  head : ∀ pair ∈ doc.head, BareKey pair.1 ∧ pair.2.Shaped
  headKeys : (doc.head.map Prod.fst).Nodup
  name : BareKey doc.name ∧ doc.name ∉ doc.head.map Prod.fst
  tables : ∀ t ∈ doc.tables, (∀ pair ∈ t, BareKey pair.1 ∧ pair.2.Shaped) ∧ (t.map Prod.fst).Nodup

end Document

/-- A reader of TOML that takes such documents just when TOML 1.0 does, as what they mean there. -/
structure Reader where
  parse : Text → Except String Table
  takes : ∀ doc : Document, doc.Shaped → ∀ table, doc.value = some table →
    parse doc.render = .ok table
  refuses : ∀ doc : Document, doc.Shaped → doc.value = none → ∃ e, parse doc.render = .error e

def readBody : Text → Option Text
  | [] => none
  | c :: s =>
    if c = quote then if s = [] then some [] else none
    else if c = slash then
      match s with
      | 'u' :: a :: b :: c :: d :: s => do return (← codePoint a b c d >>= scalar) :: (← readBody s)
      | e :: s => do return (← shortEscapes.lookup e) :: (← readBody s)
      | [] => none
    else if isUnescaped c then (readBody s).map (c :: ·)
    else none

def readToken : Text → Option Value
  | [] => none
  | c :: s =>
    if c = quote then (readBody s).map .string
    else if (c :: s).all Char.isDigit ∧ Nat.ofDigitChars 10 (c :: s) 0 < 2 ^ 63 then
      some (.integer (Nat.ofDigitChars 10 (c :: s) 0))
    else none

inductive Line
  | blank
  | header (name : Text)
  | pair (key : Text) (value : Value)

def readLine (line : Text) : Option Line :=
  match line with
  | [] => some .blank
  | '[' :: '[' :: rest =>
    let name := rest.takeWhile isBare
    if rest.drop name.length = [']', ']'] then some (.header name) else none
  | line =>
    let key := line.takeWhile isBare
    match line.drop key.length with
    | ' ' :: '=' :: ' ' :: token => (readToken token).map (.pair key)
    | _ => none

def gather : List Line → List (Text × Value) × Text × List (List (Text × Value))
  | [] => ([], [], [])
  | .blank :: lines => gather lines
  | .pair key value :: lines =>
    let (head, name, tables) := gather lines
    ((key, value) :: head, name, tables)
  | .header name :: lines =>
    let (head, _, tables) := gather lines
    ([], name, head :: tables)

def readDocument (text : Text) : Option Table := do
  let (head, name, tables) := gather (← (text.splitOn '\n').mapM readLine)
  return Document.withArray head name tables

theorem readBody_quote : readBody [quote] = some [] := by
  rw [readBody.eq_def]
  exact (if_pos rfl).trans (if_pos rfl)

theorem quote_ne_slash : quote ≠ slash := by decide

theorem readBody_raw (h : c ≠ quote) (h' : c ≠ slash) :
    readBody (c :: s) = if isUnescaped c then (readBody s).map (c :: ·) else none := by
  rw [readBody.eq_def]
  exact (if_neg h).trans (if_neg h')

theorem shortEscapes_ne_u (h : (shortEscapes.lookup e).isSome = true) : e ≠ 'u' := by
  rintro rfl
  exact absurd h (by decide)

theorem readBody_short (h : (shortEscapes.lookup e).isSome = true) : readBody (slash :: e :: s) =
    (do return (← shortEscapes.lookup e) :: (← readBody s)) := by
  rw [readBody.eq_def]
  dsimp only
  rw [if_neg quote_ne_slash.symm, if_pos rfl]
  split
  · next he =>
    obtain ⟨rfl, -⟩ := List.cons.inj he
    exact absurd rfl (shortEscapes_ne_u h)
  · next he =>
    obtain ⟨rfl, rfl⟩ := List.cons.inj he
    rfl
  · next he => cases he

theorem readBody_code : readBody (slash :: 'u' :: a :: b :: c :: d :: s) =
    (do return (← codePoint a b c d >>= scalar) :: (← readBody s)) := by
  rw [readBody.eq_def]
  dsimp only
  rw [if_neg quote_ne_slash.symm, if_pos rfl]
  rfl

theorem readBody_pieces {pieces : List Piece} (h : ∀ p ∈ pieces, p.Shaped) :
    readBody (pieces.flatMap Piece.render ++ [quote]) = pieces.mapM Piece.value := by
  induction pieces with
  | nil => exact readBody_quote
  | cons p pieces ih =>
    rw [List.forall_mem_cons] at h
    have ih := ih h.2
    rw [List.flatMap_cons, List.append_assoc, List.mapM_cons]
    cases p with
    | raw c =>
      rw [Piece.render, List.singleton_append, readBody_raw h.1.1 h.1.2.1, ih, Piece.value]
      split
      · cases pieces.mapM Piece.value <;> rfl
      · rfl
    | short c =>
      rw [Piece.render, List.cons_append, List.singleton_append, readBody_short h.1, ih]
      rfl
    | code a b c d =>
      simp only [Piece.render, List.cons_append, List.nil_append]
      rw [readBody_code, ih]
      rfl

theorem readToken_render {t : Token} (h : t.Shaped) : readToken t.render = t.value := by
  cases t with
  | string pieces =>
    rw [Token.render, List.cons_append, readToken, if_pos rfl, readBody_pieces h]
    rfl
  | integer n =>
    have hdigit : ∀ c ∈ Nat.toDigits 10 n, c.isDigit = true := fun c hc =>
      Nat.isDigit_of_mem_toDigits (by decide) (by decide) hc
    have hval : Nat.ofDigitChars 10 (Nat.toDigits 10 n) 0 = n :=
      Nat.ofDigitChars_toDigits (by decide) (by decide)
    obtain ⟨c, s, hs⟩ := List.exists_cons_of_ne_nil (@Nat.toDigits_ne_nil n 10)
    rw [Token.render, Token.value]
    rw [hs] at hdigit hval ⊢
    have hq : c ≠ quote := by
      rintro rfl
      exact absurd (hdigit quote List.mem_cons_self) (by decide)
    rw [readToken, if_neg hq, hval]
    simp only [List.all_eq_true.mpr hdigit, true_and]

theorem takeWhile_bare (h : ∀ c ∈ s, isBare c = true) (hd : isBare d = false) :
    (s ++ d :: rest).takeWhile isBare = s := by
  rw [List.takeWhile_append_of_pos h, List.takeWhile_cons_of_neg (by simp [hd]), List.append_nil]

def toLine (pair : Text × Value) : Line := .pair pair.1 pair.2

theorem readLine_pair {pair : Pair} (hk : BareKey pair.1) (ht : pair.2.Shaped) :
    readLine (renderPair pair) = (pair.2.value.map (pair.1, ·)).map toLine := by
  obtain ⟨key, token⟩ := pair
  obtain ⟨c, s, rfl⟩ := List.exists_cons_of_ne_nil hk.1
  have hc : c ≠ '[' := by
    rintro rfl
    exact absurd (hk.2 _ List.mem_cons_self) (by decide)
  have hshape : renderPair (c :: s, token) = c :: s ++ ' ' :: '=' :: ' ' :: token.render := by
    simp [renderPair]
  have htake : (c :: s ++ ' ' :: '=' :: ' ' :: token.render).takeWhile isBare = c :: s :=
    takeWhile_bare hk.2 (by decide)
  rw [hshape, readLine]
  · rw [htake, List.drop_left]
    change (readToken token.render).map (Line.pair (c :: s)) = _
    rw [show readToken token.render = token.value from readToken_render ht, Option.map_map]
    rfl
  · exact List.cons_ne_nil _ _
  · rintro rest h
    exact hc (List.cons.inj h).1

theorem readLine_header {name : Text} (h : BareKey name) :
    readLine (['[', '['] ++ name ++ [']', ']']) = some (.header name) := by
  have htake : (name ++ [']', ']']).takeWhile isBare = name := takeWhile_bare h.2 (by decide)
  rw [List.append_assoc]
  simp only [readLine, List.cons_append, List.nil_append, htake, List.drop_left, if_true]

theorem mapM_pairs {pairs : List Pair} (h : ∀ pair ∈ pairs, BareKey pair.1 ∧ pair.2.Shaped) :
    (pairs.map renderPair).mapM readLine =
      (Document.pairsValue pairs).map (·.map toLine) := by
  induction pairs with
  | nil => rfl
  | cons pair pairs ih =>
    rw [List.forall_mem_cons] at h
    have hcons : Document.pairsValue (pair :: pairs) = (do
        return (← pair.2.value.map (pair.1, ·)) :: (← Document.pairsValue pairs)) := List.mapM_cons
    rw [List.map_cons, List.mapM_cons, readLine_pair h.1.1 h.1.2, ih h.2, hcons]
    cases pair.2.value with
    | none => rfl
    | some v => cases Document.pairsValue pairs <;> rfl

def tableLines (name : Text) (pairs : List (Text × Value)) : List Line :=
  .blank :: .header name :: pairs.map toLine

theorem mapM_tables {name : Text} (hname : BareKey name) {tables : List (List Pair)}
    (h : ∀ t ∈ tables, ∀ pair ∈ t, BareKey pair.1 ∧ pair.2.Shaped) :
    (tables.flatMap fun t => [] :: (['[', '['] ++ name ++ [']', ']']) ::
        t.map renderPair).mapM readLine =
      (tables.mapM Document.pairsValue).map (·.flatMap (tableLines name)) := by
  induction tables with
  | nil => rfl
  | cons t tables ih =>
    rw [List.forall_mem_cons] at h
    rw [List.flatMap_cons, List.mapM_append, List.mapM_cons, List.mapM_cons, readLine_header hname,
      mapM_pairs h.1, ih h.2, List.mapM_cons]
    cases Document.pairsValue t with
    | none => rfl
    | some ps => cases tables.mapM Document.pairsValue <;> rfl

theorem gather_pairs (ps : List (Text × Value)) (lines : List Line) :
    gather (ps.map toLine ++ lines) =
      (ps ++ (gather lines).1, (gather lines).2) := by
  induction ps with
  | nil => rfl
  | cons p ps ih =>
    rw [List.map_cons, List.cons_append, toLine, gather, ih]
    rfl

theorem gather_tables (name : Text) (ts : List (List (Text × Value))) :
    gather (ts.flatMap (tableLines name) ++ [.blank]) =
      ([], if ts = [] then [] else name, ts) := by
  induction ts with
  | nil => rfl
  | cons t ts ih =>
    rw [List.flatMap_cons, tableLines, List.append_assoc, List.cons_append, List.cons_append,
      gather, gather, gather_pairs, ih, List.append_nil]
    rfl

theorem not_mem_of_bare {s : Text} (h : ∀ c ∈ s, isBare c = true) : '\n' ∉ s := fun hmem =>
  absurd (h _ hmem) (by decide)

theorem hexValue_newline : hexValue '\n' = none := by decide

theorem not_mem_piece {p : Piece} (h : p.Shaped) : '\n' ∉ p.render := by
  cases p with
  | raw c => simpa [Piece.render] using h.2.2.symm
  | short c =>
    have hc : '\n' ≠ c := by
      rintro rfl
      have h : (shortEscapes.lookup '\n').isSome = true := h
      exact absurd h (by decide)
    simpa [Piece.render, slash] using hc
  | code a b c d =>
    have hall : ∀ x ∈ [a, b, c, d], '\n' ≠ x := by
      rintro x hx rfl
      simp only [List.mem_cons, List.not_mem_nil, or_false] at hx
      have h : (codePoint a b c d >>= scalar).isSome = true := h
      have hnone : codePoint a b c d = none := by
        unfold codePoint
        rcases hx with rfl | rfl | rfl | rfl
        · rw [hexValue_newline]
          rfl
        · rw [hexValue_newline]
          cases hexValue a <;> rfl
        · rw [hexValue_newline]
          cases hexValue a <;> cases hexValue b <;> rfl
        · rw [hexValue_newline]
          cases hexValue a <;> cases hexValue b <;> cases hexValue c <;> rfl
      rw [hnone] at h
      cases h
    simp only [List.forall_mem_cons] at hall
    simp [Piece.render, slash, hall]

theorem not_mem_token {t : Token} (h : t.Shaped) : '\n' ∉ t.render := by
  cases t with
  | string pieces =>
    have hbody : '\n' ∉ pieces.flatMap Piece.render := fun hmem => by
      obtain ⟨p, hp, hc⟩ := List.mem_flatMap.mp hmem
      exact not_mem_piece (h p hp) hc
    simp [Token.render, hbody, quote]
  | integer n =>
    intro hmem
    exact absurd (Nat.isDigit_of_mem_toDigits (by decide) (by decide) hmem) (by decide)

theorem not_mem_pair {pair : Pair} (hk : BareKey pair.1) (ht : pair.2.Shaped) :
    '\n' ∉ renderPair pair := by
  simp [renderPair, not_mem_of_bare hk.2, not_mem_token ht]

theorem not_mem_lines {doc : Document} (h : doc.Shaped) : ∀ line ∈ doc.lines, '\n' ∉ line := by
  intro line hline
  rw [Document.lines, List.mem_append, List.mem_flatMap] at hline
  rcases hline with hline | ⟨t, ht, hline⟩
  · obtain ⟨pair, hpair, rfl⟩ := List.mem_map.mp hline
    exact not_mem_pair (h.head pair hpair).1 (h.head pair hpair).2
  · simp only [List.mem_cons, List.mem_map] at hline
    rcases hline with rfl | rfl | ⟨pair, hpair, rfl⟩
    · exact List.not_mem_nil
    · simp [not_mem_of_bare h.name.1.2]
    · exact not_mem_pair ((h.tables t ht).1 pair hpair).1 ((h.tables t ht).1 pair hpair).2

theorem flatMap_newline (lines : List Text) :
    lines.flatMap (· ++ ['\n']) = ['\n'].intercalate (lines ++ [[]]) := by
  induction lines with
  | nil => rfl
  | cons line lines ih =>
    rw [List.flatMap_cons, ih, List.cons_append,
      List.intercalate_cons_of_ne_nil (List.append_ne_nil_of_right_ne_nil _ (List.cons_ne_nil _ _))]

theorem readDocument_render {doc : Document} (h : doc.Shaped) :
    readDocument doc.render = doc.value := by
  have hsplit : doc.render.splitOn '\n' = doc.lines ++ [[]] := by
    rw [Document.render, flatMap_newline]
    have hne : doc.lines ++ [[]] ≠ [] :=
      List.append_ne_nil_of_right_ne_nil _ (List.cons_ne_nil _ _)
    refine List.splitOn_intercalate '\n' (fun line hline => ?_) hne
    rcases List.mem_append.mp hline with hline | hline
    · exact not_mem_lines h line hline
    · rw [List.mem_singleton.mp hline]
      exact List.not_mem_nil
  rw [readDocument, hsplit, Document.lines, List.append_assoc, List.mapM_append, List.mapM_append,
    mapM_pairs h.head, mapM_tables h.name.1 fun t ht => (h.tables t ht).1, Document.value]
  cases Document.pairsValue doc.head with
  | none => rfl
  | some head =>
    cases doc.tables.mapM Document.pairsValue with
    | none => rfl
    | some ts =>
      have hgather := gather_pairs head (ts.flatMap (tableLines doc.name) ++ [.blank])
      rw [gather_tables, List.append_nil] at hgather
      have hread : readLine [] = some .blank := rfl
      simp only [Option.map_some, Option.bind_eq_bind, Option.bind_some, List.mapM_cons,
        List.mapM_nil, hread, Option.pure_def, hgather]
      cases ts <;> rfl

/-- A reader that does what such documents need. -/
def lineReader : Reader where
  parse text := (readDocument text).elim (.error "not a document") .ok
  takes doc h table ht := by rw [readDocument_render h, ht]; rfl
  refuses doc h ht := ⟨_, by rw [readDocument_render h, ht]; rfl⟩

end AScript.Lib.Toml
