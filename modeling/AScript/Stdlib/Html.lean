import AScript.Lib.ByteText

/-! Escaping and unescaping HTML (`stdlib/html.rs`). -/

namespace AScript.Stdlib.Html

open AScript.Lib.ByteText

def escapeChar : Char → List Char
  | '&' => "&amp;".toList
  | '<' => "&lt;".toList
  | '>' => "&gt;".toList
  | '"' => "&quot;".toList
  | '\'' => "&#39;".toList
  | c => [c]

def escape (s : List Char) : List Char := s.flatMap escapeChar

def namedEntities : List (String × String) :=
  [("amp", "&"), ("lt", "<"), ("gt", ">"), ("quot", "\""), ("apos", "'"), ("nbsp", "\u00A0"),
    ("copy", "\u00A9"), ("reg", "\u00AE"), ("trade", "\u2122"), ("hellip", "\u2026"),
    ("mdash", "\u2014"), ("ndash", "\u2013"), ("lsquo", "\u2018"), ("rsquo", "\u2019"),
    ("ldquo", "\u201C"), ("rdquo", "\u201D"), ("middot", "\u00B7"), ("deg", "\u00B0"),
    ("euro", "\u20AC"), ("pound", "\u00A3"), ("cent", "\u00A2"), ("yen", "\u00A5"),
    ("sect", "\u00A7"), ("para", "\u00B6")]

def toDigit (radix : Nat) (c : Char) : Option Nat :=
  let digit :=
    if '0' ≤ c ∧ c ≤ '9' then c.toNat - '0'.toNat
    else if 'a' ≤ c ∧ c ≤ 'z' then c.toNat - 'a'.toNat + 10
    else if 'A' ≤ c ∧ c ≤ 'Z' then c.toNat - 'A'.toNat + 10
    else radix
  if digit < radix then some digit else none

/-- `u32::from_str_radix`: a plus sign may stand first. -/
def fromStrRadix (radix : Nat) (s : List Char) : Option Nat :=
  let digits := if s.head? = some '+' then s.tail else s
  if digits = [] then none
  else
    (digits.foldlM (fun n c => (toDigit radix c).map (radix * n + ·)) 0).filter (· < 2 ^ 32)

def charFromU32 (n : Nat) : Option Char := if n.isValidChar then some (Char.ofNat n) else none

def decodeEntityBody : List Char → Option (List Char)
  | [] => none
  | '#' :: num =>
    let code :=
      match num with
      | 'x' :: hex | 'X' :: hex => fromStrRadix 16 hex
      | _ => fromStrRadix 10 num
    (code.bind charFromU32).map ([·])
  | body => (namedEntities.find? (·.1.toList == body)).map (·.2.toList)

def entity (rest : List Char) : Option (Nat × List Char) := do
  let window ← sliceTo (min (size rest) 32) rest
  match find ';' window with
  | none => return (1, ['&'])
  | some semi =>
    let body ← sliceTo semi rest
    match decodeEntityBody body with
    | some decoded => return (1 + semi + 1, decoded)
    | none => return (1, ['&'])

def turn (s : List Char) (i : Nat) : Option (Nat × List Char) :=
  if (bytes s)[i]? = some (UInt8.ofNat '&'.toNat) then (sliceFrom (i + 1) s).bind entity
  else ((sliceFrom i s).bind List.head?).map fun ch => (ch.utf8Size, [ch])

theorem entity_pos (h : entity rest = some (n, out)) : 0 < n := by
  simp only [entity, Option.bind_eq_bind, Option.bind_eq_some_iff] at h
  obtain ⟨window, -, h⟩ := h
  split at h
  next => cases h; exact Nat.one_pos
  next =>
    obtain ⟨body, -, h⟩ := Option.bind_eq_some_iff.mp h
    split at h <;> cases h <;> omega

theorem turn_pos (h : turn s i = some (n, out)) : 0 < n := by
  unfold turn at h
  split at h
  next =>
    obtain ⟨rest, -, h⟩ := Option.bind_eq_some_iff.mp h
    exact entity_pos h
  next =>
    obtain ⟨ch, -, h⟩ := Option.map_eq_some_iff.mp h
    cases h
    exact ch.utf8Size_pos

def unescapeFrom (s : List Char) (i : Nat) (out : List Char) : Option (List Char) :=
  if i < size s then
    match _ : turn s i with
    | none => none
    | some (n, more) => unescapeFrom s (i + n) (out ++ more)
  else some out
termination_by size s - i
decreasing_by
  have := turn_pos ‹_›
  omega

/-- `unescape`; `none` is a panic. -/
def unescape (s : List Char) : Option (List Char) := unescapeFrom s 0 []

/-- Behind every ampersand the window for its semicolon ends between characters. -/
def Windowed (s : List Char) : Prop :=
  ∀ rest, '&' :: rest <:+ s → isCharBoundary rest (min (size rest) 32)

theorem turn_char (h : c ≠ '&') (p s : List Char) :
    turn (p ++ c :: s) (size p) = some (c.utf8Size, [c]) := by
  have hbyte := mt (getElem?_bytes (a := '&') (by decide) p s c).mp h
  rw [turn, if_neg hbyte, sliceFrom_append]
  rfl

theorem turn_ampersand (p rest : List Char) :
    turn (p ++ '&' :: rest) (size p) = entity rest := by
  have hbyte := (getElem?_bytes (a := '&') (by decide) p rest '&').mpr rfl
  have hnext : sliceFrom (size p + 1) (p ++ '&' :: rest) = some rest := by
    have := sliceFrom_append (p ++ ['&']) rest
    rwa [size_append, List.append_assoc] at this
  rw [turn, if_pos hbyte, hnext]
  rfl

theorem unescapeFrom_turn {p a s : List Char}
    (h : turn (p ++ (a ++ s)) (size p) = some (size a, more)) (ha : a ≠ []) (out : List Char) :
    unescapeFrom (p ++ (a ++ s)) (size p) out =
      unescapeFrom ((p ++ a) ++ s) (size (p ++ a)) (out ++ more) := by
  have hlt : size p < size (p ++ (a ++ s)) := by
    have := mt size_eq_zero.mp ha
    rw [size_append, size_append]
    omega
  rw [unescapeFrom, if_pos hlt]
  split
  next hn => cases hn.symm.trans h
  next hn =>
    cases hn.symm.trans h
    rw [size_append, List.append_assoc]

theorem unescapeFrom_panic (h : turn (p ++ c :: s) (size p) = none) (out : List Char) :
    unescapeFrom (p ++ c :: s) (size p) out = none := by
  have hlt : size p < size (p ++ c :: s) := by
    have := c.utf8Size_pos
    rw [size_append, size_cons]
    omega
  rw [unescapeFrom, if_pos hlt]
  split
  next => rfl
  next hn => cases hn.symm.trans h

theorem unescapeFrom_end (p out : List Char) : unescapeFrom (p ++ []) (size p) out = some out := by
  rw [unescapeFrom, if_neg (by simp)]

theorem toDigit_ampersand (radix : Nat) : toDigit radix '&' = none := by
  simp [toDigit]

theorem foldlM_ampersand {digits : List Char} (h : '&' ∈ digits) (n : Nat) :
    digits.foldlM (fun n c => (toDigit radix c).map (radix * n + ·)) n = none := by
  induction digits generalizing n with
  | nil => cases h
  | cons c digits ih =>
    rw [List.foldlM_cons]
    rcases List.mem_cons.mp h with rfl | h
    · rw [toDigit_ampersand]
      rfl
    · cases toDigit radix c with
      | none => rfl
      | some d => exact ih h _

theorem fromStrRadix_ampersand {s : List Char} (h : '&' ∈ s) : fromStrRadix radix s = none := by
  have hdigits : '&' ∈ if s.head? = some '+' then s.tail else s := by
    split
    next hplus =>
      cases s with
      | nil => cases h
      | cons c s =>
        cases hplus
        exact (List.mem_cons.mp h).resolve_left (by decide)
    next => exact h
  simp only [fromStrRadix, foldlM_ampersand hdigits, Option.filter_none, ite_self]

theorem decodeEntityBody_ampersand (h : '&' ∈ body) : decodeEntityBody body = none := by
  unfold decodeEntityBody
  split
  next => cases h
  next num =>
    have hnum : '&' ∈ num := (List.mem_cons.mp h).resolve_left (by decide)
    have hcode : (match num with
      | 'x' :: hex | 'X' :: hex => fromStrRadix 16 hex
      | _ => fromStrRadix 10 num) = none := by
      split
      next hex => exact fromStrRadix_ampersand ((List.mem_cons.mp hnum).resolve_left (by decide))
      next hex => exact fromStrRadix_ampersand ((List.mem_cons.mp hnum).resolve_left (by decide))
      next => exact fromStrRadix_ampersand hnum
    dsimp only
    rw [hcode]
    rfl
  next =>
    have hnames : ∀ e ∈ namedEntities, '&' ∉ e.1.toList := by decide
    rw [Option.map_eq_none_iff, List.find?_eq_none]
    intro e he heq
    exact hnames e he (beq_iff_eq.mp heq ▸ h)

theorem entity_body (hwindow : sliceTo (min (size rest) 32) rest = some window)
    (hsemi : find ';' window = some semi) (hbody : sliceTo semi rest = some body) :
    entity rest =
      match decodeEntityBody body with
      | some decoded => some (1 + semi + 1, decoded)
      | none => some (1, ['&']) := by
  rw [entity, hwindow, Option.bind_eq_bind, Option.bind_some, hsemi]
  dsimp only
  rw [hbody, Option.bind_some]
  cases decodeEntityBody body <;> rfl

theorem entity_cases (rest : List Char) :
    (isCharBoundary rest (min (size rest) 32) = false ∧ entity rest = none) ∨
    isCharBoundary rest (min (size rest) 32) = true ∧
      (entity rest = some (1, ['&']) ∨ ∃ name more decoded, rest = name ++ more ∧ '&' ∉ name ∧
        entity rest = some (1 + size name, decoded)) := by
  have hboundary := sliceTo_isSome (min (size rest) 32) rest
  cases hwindow : sliceTo (min (size rest) 32) rest with
  | none =>
    rw [hwindow] at hboundary
    exact .inl ⟨hboundary.symm, by rw [entity, hwindow]; rfl⟩
  | some window =>
    rw [hwindow] at hboundary
    refine .inr ⟨hboundary.symm, ?_⟩
    obtain ⟨tail, hrest, -⟩ := sliceTo_eq_some.mp hwindow
    cases hsemi : find ';' window with
    | none =>
      left
      rw [entity, hwindow, Option.bind_eq_bind, Option.bind_some, hsemi]
      rfl
    | some semi =>
      obtain ⟨body, more, rfl, -, rfl⟩ := find_eq_some hsemi
      rw [List.append_assoc, List.cons_append] at hrest
      have hentity := entity_body hwindow hsemi (by rw [hrest, sliceTo_append])
      cases hdecoded : decodeEntityBody body with
      | none => exact .inl (by rw [hentity, hdecoded])
      | some decoded =>
        refine .inr ⟨body ++ [';'], more ++ tail, decoded, by simp [hrest], fun hamp => ?_, ?_⟩
        · have hbody : '&' ∈ body := by simpa using hamp
          rw [decodeEntityBody_ampersand hbody] at hdecoded
          cases hdecoded
        · rw [hentity, hdecoded, size_append]
          rfl

theorem suffix_append (h : c ∉ l) : c :: rest <:+ l ++ s ↔ c :: rest <:+ s := by
  induction l with
  | nil => exact Iff.rfl
  | cons d l ih =>
    rw [List.mem_cons, not_or] at h
    rw [List.cons_append, List.suffix_cons_iff, ih h.2]
    exact or_iff_right fun he => h.1 (List.cons.inj he).1

theorem windowed_append (h : '&' ∉ l) : Windowed (l ++ s) ↔ Windowed s :=
  forall_congr' fun _ => imp_congr_left (suffix_append h)

theorem windowed_ampersand : Windowed ('&' :: rest) ↔
    isCharBoundary rest (min (size rest) 32) ∧ Windowed rest := by
  constructor
  · exact fun h => ⟨h rest List.suffix_rfl, fun r hr => h r (hr.trans (List.suffix_cons '&' rest))⟩
  · rintro ⟨hfirst, hrest⟩ r hr
    rcases List.suffix_cons_iff.mp hr with he | hr
    · cases he
      exact hfirst
    · exact hrest r hr

theorem unescapeFrom_isSome (p s out : List Char) :
    (unescapeFrom (p ++ s) (size p) out).isSome ↔ Windowed s := by
  induction hn : s.length using Nat.strong_induction_on generalizing p s out with
  | _ n ih =>
  cases s with
  | nil =>
    rw [unescapeFrom_end]
    exact iff_of_true rfl fun rest h => absurd (List.suffix_nil.mp h) (List.cons_ne_nil _ _)
  | cons c s =>
    rw [List.length_cons] at hn
    by_cases hc : c = '&'
    · subst hc
      have hturn := turn_ampersand p s
      rw [windowed_ampersand]
      obtain ⟨hcut, hnone⟩ | ⟨hwhole, hsingle | ⟨name, more, decoded, rfl, hamp, hsome⟩⟩ :=
        entity_cases s
      · rw [unescapeFrom_panic (hturn.trans hnone), hcut]
        simp
      · have hstep :=
          unescapeFrom_turn (a := ['&']) (hturn.trans hsingle) (List.cons_ne_nil _ _) out
        rw [List.singleton_append] at hstep
        rw [hstep, ih s.length (by omega) _ s _ rfl, hwhole]
        simp
      · have hstep := unescapeFrom_turn (a := '&' :: name) (hturn.trans hsome)
          (List.cons_ne_nil _ _) out
        rw [List.length_append] at hn
        rw [List.cons_append] at hstep
        rw [hstep, ih more.length (by omega) _ more _ rfl, hwhole, windowed_append hamp]
        simp
    · have hstep := unescapeFrom_turn (a := [c]) (turn_char hc p s) (List.cons_ne_nil _ _) out
      have hplain : '&' ∉ [c] := by simpa using Ne.symm hc
      rw [List.singleton_append] at hstep
      rw [hstep, ih s.length (by omega) _ s _ rfl, ← windowed_append hplain, List.singleton_append]

def special : List Char := ['&', '<', '>', '"', '\'']

/-- What stands between the ampersand and the semicolon of an escaped character. -/
def emitted : List (List Char) :=
  ["amp".toList, "lt".toList, "gt".toList, "quot".toList, "#39".toList]

theorem escapeChar_cases (c : Char) : (escapeChar c = [c] ∧ c ∉ special) ∨
    ∃ body ∈ emitted, escapeChar c = '&' :: (body ++ [';']) ∧
      decodeEntityBody body = some [c] ∧ c ∈ special := by
  unfold escapeChar
  split
  next => exact .inr ⟨"amp".toList, by decide, rfl, by decide, by decide⟩
  next => exact .inr ⟨"lt".toList, by decide, rfl, by decide, by decide⟩
  next => exact .inr ⟨"gt".toList, by decide, rfl, by decide, by decide⟩
  next => exact .inr ⟨"quot".toList, by decide, rfl, by decide, by decide⟩
  next => exact .inr ⟨"#39".toList, by decide, rfl, by decide, by decide⟩
  next h₁ h₂ h₃ h₄ h₅ =>
    refine .inl ⟨rfl, ?_⟩
    simp only [special, List.mem_cons, List.not_mem_nil, or_false, not_or]
    exact ⟨h₁, h₂, h₃, h₄, h₅⟩

theorem forall_mem_of_all {p : α → Prop} [DecidablePred p] {l : List α}
    (h : l.all (decide <| p ·) = true) : ∀ a ∈ l, p a :=
  fun a ha => of_decide_eq_true (List.all_eq_true.mp h a ha)

theorem emitted_plain : ∀ body ∈ emitted, ';' ∉ body ∧ size body < 32 ∧
    ∀ c ∈ body ++ [';'], c ∉ special := by
  intro body hbody
  have hall : emitted.all fun body => ';' ∉ body ∧ size body < 32 ∧
      (body ++ [';']).all fun c => c ∉ special := by decide
  obtain ⟨hend, hsize, hplain⟩ := forall_mem_of_all hall body hbody
  exact ⟨hend, hsize, forall_mem_of_all hplain⟩

theorem emitted_ascii : ∀ body ∈ emitted, ∀ c ∈ '&' :: (body ++ [';']), c.utf8Size = 1 := by
  intro body hbody
  have hall : emitted.all fun body => ('&' :: (body ++ [';'])).all fun c => c.utf8Size = 1 := by
    decide
  exact forall_mem_of_all (List.all_eq_true.mp hall body hbody)

theorem special_ascii : ∀ c ∈ special, c.utf8Size = 1 := forall_mem_of_all (by decide)

theorem escape_cons (c : Char) (s : List Char) : escape (c :: s) = escapeChar c ++ escape s := rfl

theorem entity_emitted (hbody : body ∈ emitted) (hdecoded : decodeEntityBody body = some [c])
    (hwindow : isCharBoundary (body ++ [';'] ++ s) (min (size (body ++ [';'] ++ s)) 32)) :
    entity (body ++ [';'] ++ s) = some (1 + size (body ++ [';']), [c]) := by
  obtain ⟨hsemi, hsize, -⟩ := emitted_plain body hbody
  rw [← sliceTo_isSome, Option.isSome_iff_exists] at hwindow
  obtain ⟨window, hwindow⟩ := hwindow
  obtain ⟨tail, hrest, hlen⟩ := sliceTo_eq_some.mp hwindow
  have hfits : size (body ++ [';']) ≤ size window := by
    have hone : size [';'] = 1 := rfl
    simp only [size_append] at hlen ⊢
    omega
  obtain ⟨more, rfl⟩ := prefix_of_size_le (List.prefix_append _ s)
    (hrest ▸ List.prefix_append window tail) hfits
  have hfind : find ';' (body ++ [';'] ++ more) = some (size body) := by
    rw [List.append_assoc]
    exact find_append hsemi more
  have hslice : sliceTo (size body) (body ++ [';'] ++ s) = some body := by
    rw [List.append_assoc, sliceTo_append]
  rw [entity_body hwindow hfind hslice, hdecoded, size_append]
  rfl

theorem unescapeFrom_escape {s : List Char} (hw : Windowed (escape s)) (p out : List Char) :
    unescapeFrom (p ++ escape s) (size p) out = some (out ++ s) := by
  induction s generalizing p out with
  | nil =>
    rw [List.append_nil]
    exact unescapeFrom_end p out
  | cons c s ih =>
    rw [escape_cons] at hw ⊢
    obtain ⟨hplain, hc⟩ | ⟨body, hbody, hesc, hdecoded, -⟩ := escapeChar_cases c
    · have hamp : c ≠ '&' := fun he => hc (he ▸ List.mem_cons_self)
      have hnot : '&' ∉ [c] := by simpa using hamp.symm
      rw [hplain] at hw ⊢
      rw [unescapeFrom_turn (turn_char hamp p (escape s)) (List.cons_ne_nil _ _),
        ih ((windowed_append hnot).mp hw), List.append_assoc, List.singleton_append]
    · rw [hesc] at hw ⊢
      obtain ⟨hfirst, hrest⟩ := windowed_ampersand.mp hw
      have hnot : '&' ∉ body ++ [';'] := fun h =>
        (emitted_plain body hbody).2.2 _ h List.mem_cons_self
      have hturn := (turn_ampersand p _).trans (entity_emitted hbody hdecoded hfirst)
      rw [unescapeFrom_turn hturn (List.cons_ne_nil _ _), ih ((windowed_append hnot).mp hrest),
        List.append_assoc, List.singleton_append]

theorem escape_ampersands {s : List Char} (h : '&' :: rest <:+ escape s) :
    ∃ body ∈ emitted, '&' :: (body ++ [';']) <+: '&' :: rest := by
  induction s with
  | nil => exact absurd (List.suffix_nil.mp h) (List.cons_ne_nil _ _)
  | cons c s ih =>
    rw [escape_cons] at h
    obtain ⟨hplain, hc⟩ | ⟨body, hbody, hesc, -⟩ := escapeChar_cases c
    · have hnot : '&' ∉ [c] := by
        rintro (_ | ⟨_, ⟨⟩⟩)
        exact hc List.mem_cons_self
      rw [hplain] at h
      exact ih ((suffix_append hnot).mp h)
    · have hnot : '&' ∉ body ++ [';'] := fun h =>
        (emitted_plain body hbody).2.2 _ h List.mem_cons_self
      rw [hesc, List.cons_append] at h
      rcases List.suffix_cons_iff.mp h with he | h
      · exact ⟨body, hbody, he ▸ List.prefix_append ('&' :: (body ++ [';'])) (escape s)⟩
      · exact ih ((suffix_append hnot).mp h)

theorem escape_plain (s : List Char) : ∀ c ∈ escape s, c ∈ special → c = '&' := by
  induction s with
  | nil => nofun
  | cons d s ih =>
    intro c hc hspecial
    rw [escape_cons, List.mem_append] at hc
    rcases hc with hc | hc
    · obtain ⟨hplain, hd⟩ | ⟨body, hbody, hesc, -⟩ := escapeChar_cases d
      · rw [hplain, List.mem_singleton] at hc
        exact absurd (hc ▸ hspecial) hd
      · rw [hesc, List.mem_cons] at hc
        exact hc.resolve_right fun h => (emitted_plain body hbody).2.2 c h hspecial
    · exact ih c hc hspecial

theorem escapeChar_append_inj {c d : Char} {s t : List Char}
    (h : escapeChar c ++ s = escapeChar d ++ t) : c = d ∧ s = t := by
  obtain ⟨hc, hplain⟩ | ⟨body, hbody, hc, hdecoded, -⟩ := escapeChar_cases c <;>
    obtain ⟨hd, hplain'⟩ | ⟨body', hbody', hd, hdecoded', -⟩ := escapeChar_cases d <;>
    rw [hc, hd] at h
  · exact List.cons.inj h
  · exact absurd (List.cons.inj h).1 fun he => hplain (he ▸ List.mem_cons_self)
  · exact absurd (List.cons.inj h).1 fun he => hplain' (he ▸ List.mem_cons_self)
  · have htail : body ++ ';' :: s = body' ++ ';' :: t := by simpa using h
    have hsize : size body = size body' := by
      have hfind := find_append (emitted_plain body hbody).1 s
      rw [htail, find_append (emitted_plain body' hbody').1 t] at hfind
      exact (Option.some_inj.mp hfind).symm
    have hsplit := split_append body (';' :: s)
    rw [htail, hsize, split_append] at hsplit
    cases hsplit
    rw [hdecoded] at hdecoded'
    cases hdecoded'
    exact ⟨rfl, rfl⟩

theorem escapeChar_ne_nil (c : Char) : escapeChar c ≠ [] := by
  obtain ⟨h, -⟩ | ⟨body, -, h, -⟩ := escapeChar_cases c <;> rw [h] <;> exact List.cons_ne_nil _ _

theorem escape_inj {s t : List Char} (h : escape s = escape t) : s = t := by
  induction s generalizing t with
  | nil =>
    cases t with
    | nil => rfl
    | cons d t => exact absurd (List.append_eq_nil_iff.mp h.symm).1 (escapeChar_ne_nil d)
  | cons c s ih =>
    cases t with
    | nil => exact absurd (List.append_eq_nil_iff.mp h).1 (escapeChar_ne_nil c)
    | cons d t =>
      obtain ⟨rfl, hrest⟩ := escapeChar_append_inj h
      rw [ih hrest]

def escapedSize : Char → Nat
  | '&' => 5
  | '<' => 4
  | '>' => 4
  | '"' => 6
  | '\'' => 5
  | c => c.utf8Size

/-- Behind no escaped character is another cut at the 33rd byte from it, where the characters
between count as escaped. -/
def EscapedWindowed (s : List Char) : Prop :=
  ∀ c t, c :: t <:+ s → c ∈ special → ∀ a d b, t = a ++ d :: b →
    ¬ (escapedSize c + (a.map escapedSize).sum < 33 ∧
      33 < escapedSize c + (a.map escapedSize).sum + d.utf8Size)

theorem escapedSize_plain (h : c ∉ special) : escapedSize c = c.utf8Size := by
  unfold escapedSize
  split
  iterate 5 exact absurd (by decide) h
  rfl

theorem escapedSize_entity : ∀ c ∈ special, size (escapeChar c) = escapedSize c :=
  forall_mem_of_all (by decide)

theorem size_escapeChar (c : Char) : size (escapeChar c) = escapedSize c := by
  obtain ⟨hplain, hc⟩ | ⟨-, -, -, -, hspecial⟩ := escapeChar_cases c
  · rw [hplain, escapedSize_plain hc]
    rfl
  · exact escapedSize_entity c hspecial

theorem utf8Size_le_escapedSize (c : Char) : c.utf8Size ≤ escapedSize c := by
  unfold escapedSize
  split <;> first | decide | exact le_rfl

theorem escape_boundary (t : List Char) (n : Nat) :
    isCharBoundary (escape t) (min (size (escape t)) n) ↔ ∀ a d b, t = a ++ d :: b →
      ¬ ((a.map escapedSize).sum < n ∧ n < (a.map escapedSize).sum + d.utf8Size) := by
  induction t generalizing n with
  | nil =>
    rw [show escape [] = [] from rfl, size_nil, Nat.zero_min]
    exact iff_of_true (isCharBoundary_zero _) fun a d b h =>
      absurd (List.append_eq_nil_iff.mp h.symm).2 (List.cons_ne_nil _ _)
  | cons c t ih =>
    have hsize := size_escapeChar c
    have hle := utf8Size_le_escapedSize c
    by_cases hn : escapedSize c ≤ n
    · obtain ⟨m, rfl⟩ := Nat.exists_eq_add_of_le hn
      rw [escape_cons, size_append, hsize, Nat.add_min_add_left, ← hsize, isCharBoundary_append, ih]
      constructor
      · rintro h (_ | ⟨c', a⟩) d b he
        · cases he
          simp only [List.map_nil, List.sum_nil]
          omega
        · cases he
          have := h a d b rfl
          simp only [List.map_cons, List.sum_cons]
          omega
      · intro h a d b he
        have := h (c :: a) d b (by rw [he, List.cons_append])
        simp only [List.map_cons, List.sum_cons] at this
        omega
    · have hfar : ∀ a d b, c :: t = a ++ d :: b → a ≠ [] → n < (a.map escapedSize).sum := by
        rintro (_ | ⟨c', a⟩) d b he ha
        · exact absurd rfl ha
        · cases he
          simp only [List.map_cons, List.sum_cons]
          omega
      have hright : (∀ a d b, c :: t = a ++ d :: b →
          ¬ ((a.map escapedSize).sum < n ∧ n < (a.map escapedSize).sum + d.utf8Size)) ↔
          ¬ (0 < n ∧ n < c.utf8Size) := by
        constructor
        · intro h hcut
          exact h [] c t rfl (by simpa using hcut)
        · rintro h (_ | ⟨c', a⟩) d b he hcut
          · cases he
            exact h (by simpa using hcut)
          · have := hfar (c' :: a) d b he (List.cons_ne_nil _ _)
            omega
      rw [hright, escape_cons, size_append, hsize, min_eq_right (by omega)]
      obtain ⟨hplain, -⟩ | ⟨body, hbody, hesc, -, hspecial⟩ := escapeChar_cases c
      · rw [hplain, size_cons, size_nil] at hsize
        rw [hplain, List.singleton_append, isCharBoundary_inside (by omega)]
        omega
      · refine iff_of_true (isCharBoundary_ascii ?_ (by omega) _) ?_
        · rw [hesc]
          exact emitted_ascii body hbody
        · have := special_ascii c hspecial
          omega

theorem escapedWindowed_cons : EscapedWindowed (c :: t) ↔
    (c ∈ special → ∀ a d b, t = a ++ d :: b →
      ¬ (escapedSize c + (a.map escapedSize).sum < 33 ∧
        33 < escapedSize c + (a.map escapedSize).sum + d.utf8Size)) ∧ EscapedWindowed t := by
  constructor
  · exact fun h => ⟨h c t List.suffix_rfl,
      fun c' t' ht => h c' t' (ht.trans (List.suffix_cons c t))⟩
  · rintro ⟨hfirst, hrest⟩ c' t' ht
    rcases List.suffix_cons_iff.mp ht with he | ht
    · cases he
      exact hfirst
    · exact hrest c' t' ht

theorem windowed_escape (s : List Char) : Windowed (escape s) ↔ EscapedWindowed s := by
  induction s with
  | nil =>
    refine iff_of_true (fun rest h => ?_) fun c t h => ?_ <;>
      exact absurd (List.suffix_nil.mp h) (List.cons_ne_nil _ _)
  | cons c s ih =>
    have hsize := size_escapeChar c
    rw [escape_cons, escapedWindowed_cons, ← ih]
    obtain ⟨hplain, hc⟩ | ⟨body, hbody, hesc, -, hspecial⟩ := escapeChar_cases c
    · have hnot : '&' ∉ [c] := by
        rintro (_ | ⟨_, ⟨⟩⟩)
        exact hc List.mem_cons_self
      rw [hplain, windowed_append hnot]
      exact (and_iff_right fun h => absurd h hc).symm
    · obtain ⟨-, hshort, hinside⟩ := emitted_plain body hbody
      have hnot : '&' ∉ body ++ [';'] := fun h => hinside _ h List.mem_cons_self
      have hone : size [';'] = 1 := rfl
      have hamp : '&'.utf8Size = 1 := rfl
      -- the window behind the ampersand ends so many bytes behind the entity
      obtain ⟨m, hm⟩ := Nat.exists_eq_add_of_le (show size (body ++ [';']) ≤ 32 by
        rw [size_append]
        omega)
      have hwindow : isCharBoundary (body ++ [';'] ++ escape s)
          (min (size (body ++ [';'] ++ escape s)) 32) =
          isCharBoundary (escape s) (min (size (escape s)) m) := by
        rw [size_append, hm, Nat.add_min_add_left, isCharBoundary_append]
      rw [hesc, size_cons] at hsize
      rw [hesc, List.cons_append, windowed_ampersand, windowed_append hnot, hwindow,
        escape_boundary]
      refine and_congr_left fun _ => ?_
      rw [imp_iff_right hspecial]
      refine forall₃_congr fun a d b => imp_congr_right fun _ => ?_
      omega

/-- Unescaping is total where no window is cut, and there undoes escaping; what escaping writes
is always harmless and tells the texts apart. -/
theorem unescape_windowed (s : List Char) :
    ((unescape s).isSome ↔ Windowed s) ∧
    (unescape (escape s) = some s ↔ EscapedWindowed s) ∧
    (∀ c ∈ escape s, c ∉ ['<', '>', '"', '\'']) ∧
    (∀ rest, '&' :: rest <:+ escape s →
      ∃ body ∈ emitted, '&' :: (body ++ [';']) <+: '&' :: rest) ∧
    ∀ t, escape s = escape t → s = t := by
  refine ⟨unescapeFrom_isSome [] s [], ?_, fun c hc hspecial => ?_,
    fun rest => escape_ampersands, fun t => escape_inj⟩
  · rw [← windowed_escape]
    constructor
    · exact fun h => (unescapeFrom_isSome [] (escape s) []).mp (Option.isSome_of_eq_some h)
    · exact fun h => unescapeFrom_escape h [] []
  · have hamp := escape_plain s c hc (List.mem_cons_of_mem '&' hspecial)
    rw [hamp] at hspecial
    exact absurd hspecial (by decide)

/-- Thirty-one letters and an accented one behind an ampersand are cut inside the last, and so is
what escaping writes for a bracket before accented letters. -/
theorem unescape_cuts : unescape ('&' :: List.replicate 31 'a' ++ ['é']) = none ∧
    unescape (escape ('<' :: List.replicate 15 'é')) = none := by
  constructor
  · exact unescapeFrom_panic (p := []) (by decide) []
  · exact unescapeFrom_panic (p := []) (by decide) []

end AScript.Stdlib.Html
