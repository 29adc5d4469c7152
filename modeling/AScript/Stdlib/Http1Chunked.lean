import AScript.Stdlib.Http1Body

namespace AScript.Stdlib.Http1

open AScript.Lib
open AScript.Lib.Message (Bytes crlf)
open AScript.Stdlib.Semver (trim)
open AScript.Syntax (isWhitespace)

def isHex (b : UInt8) : Bool :=
  48 ≤ b && b ≤ 57 || 65 ≤ b && b ≤ 70 || 97 ≤ b && b ≤ 102

def hexNibble (b : UInt8) : Nat :=
  if b ≤ 57 then b.toNat - 48 else if b ≤ 70 then b.toNat - 55 else b.toNat - 87

def hexValue (digits : Bytes) : Nat := digits.foldl (fun n b => 16 * n + hexNibble b) 0

structure SizeLine (size : Nat) where
  digits : Bytes
  blanks : Bytes
  extensions : Bytes
  digits_ne_nil : digits ≠ []
  hex : ∀ b ∈ digits, isHex b = true
  value : hexValue digits = size
  blank : ∀ b ∈ blanks, b = 9 ∨ b = 32
  semicolon : extensions ≠ [] → extensions.head? = some 59
  plain : 13 ∉ extensions ∧ 10 ∉ extensions
  fits : (digits ++ blanks ++ extensions).length < maxHeaderBlock
  small : size ≤ maxChunkSize

def SizeLine.text (l : SizeLine size) : Bytes := l.digits ++ l.blanks ++ l.extensions

structure Chunk where
  data : Bytes
  nonempty : data ≠ []
  line : SizeLine data.length

structure Trailer where
  text : Bytes
  nonempty : text ≠ []
  plain : 13 ∉ text ∧ 10 ∉ text
  fits : text.length < maxHeaderBlock

structure Encoding where
  chunks : List Chunk
  last : SizeLine 0
  trailers : List Trailer

def Chunk.write (c : Chunk) : Bytes := c.line.text ++ crlf ++ (c.data ++ crlf)

def writeTrailers (trailers : List Trailer) : Bytes :=
  trailers.flatMap (fun t => t.text ++ crlf) ++ crlf

def Encoding.write (e : Encoding) : Bytes :=
  e.chunks.flatMap Chunk.write ++ (e.last.text ++ crlf ++ writeTrailers e.trailers)

def Encoding.body (e : Encoding) : Bytes := e.chunks.flatMap Chunk.data

theorem cut_cases {left missing a b : List α} (h : left ++ missing = a ++ b) :
    (∃ left', left = a ++ left' ∧ left' ++ missing = b) ∨
      ∃ m, m ≠ [] ∧ left ++ m = a ∧ missing = m ++ b := by
  obtain ⟨m, ha, hm⟩ | ⟨left', hl, hb⟩ := List.append_eq_append_iff.mp h
  · by_cases hnil : m = []
    · subst hnil
      rw [List.append_nil] at ha
      exact .inl ⟨[], by rw [ha, List.append_nil], hm⟩
    · exact .inr ⟨m, hnil, ha.symm, hm⟩
  · exact .inl ⟨left', hl, hb.symm⟩

theorem length_taken {left left' missing a rest : List α} (h : left ++ missing = a ++ rest)
    (h' : left' ++ missing = rest) : left'.length + a.length = left.length := by
  rw [← h', ← List.append_assoc] at h
  have hlen := congrArg List.length (List.append_cancel_right h)
  rw [List.length_append] at hlen
  omega

section Lines

variable {src : Source UInt8} {max : Nat}

theorem readLine_newline (s : src.State) (line l : Bytes) (hs : src.left s = l ++ 10 :: rest)
    (hl : 10 ∉ l) (hmax : line.length + l.length ≤ max) (hfuel : l.length < fuel) :
    ∃ s', readLine src max fuel line s = .ok (line ++ l, s') ∧ src.left s' = rest := by
  induction l generalizing fuel line s with
  | nil =>
    obtain ⟨fuel, rfl⟩ := Nat.exists_eq_succ_of_ne_zero (Nat.ne_of_gt hfuel)
    obtain ⟨hgot, hleft⟩ := Source.read_one hs
    refine ⟨(src.read s 1).2, ?_, hleft⟩
    rw [readLine, ← Prod.mk.eta (p := src.read s 1), hgot, List.append_nil]
    rfl
  | cons b l ih =>
    obtain ⟨fuel, rfl⟩ := Nat.exists_eq_succ_of_ne_zero (by omega : fuel ≠ 0)
    obtain ⟨hb, hl⟩ := not_or.mp (List.mem_cons.not.mp hl)
    obtain ⟨hgot, hleft⟩ := Source.read_one hs
    rw [List.length_cons] at hmax hfuel
    obtain ⟨s', hok, hs'⟩ := ih _ (line ++ [b]) hleft hl
      (by rw [List.length_append, List.length_singleton]; omega) (Nat.lt_of_succ_lt_succ hfuel)
    refine ⟨s', ?_, hs'⟩
    rw [readLine, ← Prod.mk.eta (p := src.read s 1), hgot]
    dsimp only
    rw [if_neg fun h => hb h.symm, if_neg (by omega), hok, List.append_assoc]
    rfl

theorem readLine_end (s : src.State) (line : Bytes) (hl : 10 ∉ src.left s)
    (hmax : line.length + (src.left s).length ≤ max) (hfuel : (src.left s).length ≤ fuel) :
    ∃ s', readLine src max fuel line s = endOfStream src (line ++ src.left s) s' ∧
      src.left s' = [] := by
  induction fuel generalizing line s with
  | zero =>
    have hnil := List.length_eq_zero_iff.mp (Nat.le_zero.mp hfuel)
    exact ⟨s, by rw [hnil, List.append_nil]; rfl, hnil⟩
  | succ fuel ih =>
    cases hs : src.left s with
    | nil =>
      obtain ⟨hgot, hleft⟩ := Source.read_nil (n := 1) hs
      refine ⟨(src.read s 1).2, ?_, hleft⟩
      rw [readLine, ← Prod.mk.eta (p := src.read s 1), hgot, List.append_nil]
    | cons b l =>
      rw [hs] at hl hmax hfuel
      obtain ⟨hb, hl⟩ := not_or.mp (List.mem_cons.not.mp hl)
      obtain ⟨hgot, hleft⟩ := Source.read_one hs
      rw [List.length_cons] at hmax hfuel
      obtain ⟨s', hok, hs'⟩ := ih (src.read s 1).2 (line ++ [b]) (by rwa [hleft])
        (by rw [hleft, List.length_append, List.length_singleton]; omega) (by rw [hleft]; omega)
      refine ⟨s', ?_, hs'⟩
      rw [readLine, ← Prod.mk.eta (p := src.read s 1), hgot]
      dsimp only
      rw [if_neg fun h => hb h.symm, if_neg (by omega), hok, hleft, List.append_assoc]
      rfl

theorem stripCr_concat (l : Bytes) : stripCr (l ++ [13]) = l := by
  rw [stripCr, List.getLast?_concat, if_pos rfl, List.dropLast_concat]

theorem stripCr_plain (h : 13 ∉ l) : stripCr l = l := by
  rw [stripCr, if_neg fun he => h (List.mem_of_getLast? he)]

theorem readLineLimited_newline (s : src.State) (hs : src.left s = l ++ crlf ++ rest)
    (hl : 10 ∉ l) (hmax : l.length < max) :
    ∃ s', readLineLimited src s max = .ok (LossyUtf8.decode l, s') ∧ src.left s' = rest := by
  have hs' : src.left s = l ++ [13] ++ 10 :: rest := by simp [hs, crlf]
  have hmem : 10 ∉ l ++ [13] := by simpa using hl
  have hlen : (l ++ [13]).length < (src.left s).length := by
    have := congrArg List.length hs'
    rw [List.length_append, List.length_cons] at this
    omega
  have hmax' : ([] : Bytes).length + (l ++ [13]).length ≤ max := by
    simpa [Nat.succ_le_iff] using hmax
  obtain ⟨s', hok, hleft⟩ := readLine_newline s [] _ hs' hmem hmax' hlen
  refine ⟨s', ?_, hleft⟩
  rw [readLineLimited, hok, List.nil_append]
  simp only [bind, Except.bind, stripCr_concat]

theorem readLineLimited_end (s : src.State) (hl : 10 ∉ src.left s) (hne : src.left s ≠ [])
    (hmax : (src.left s).length ≤ max) :
    ∃ s', readLineLimited src s max = .ok (LossyUtf8.decode (stripCr (src.left s)), s') ∧
      src.left s' = [] := by
  obtain ⟨s', hok, hleft⟩ := readLine_end s [] hl (by simpa using hmax) (Nat.le_refl _)
  refine ⟨s', ?_, hleft⟩
  rw [readLineLimited, hok, List.nil_append, endOfStream, if_neg (by simpa using hne)]
  rfl

theorem readLineLimited_nil (s : src.State) (h : src.left s = []) :
    readLineLimited src s max = .error closedMidLine := by
  rw [readLineLimited, h]
  rfl

theorem readLineLimited_cases (s : src.State) (hl : 13 ∉ l ∧ 10 ∉ l) (hmax : l.length < max)
    (h : src.left s ++ missing = l ++ crlf ++ rest) :
    (∃ s', readLineLimited src s max = .ok (LossyUtf8.decode l, s') ∧
      src.left s' ++ missing = rest) ∨
    (src.left s = [] ∧ readLineLimited src s max = .error closedMidLine) ∨
    (∃ p s' m, p <+: l ∧ readLineLimited src s max = .ok (LossyUtf8.decode p, s') ∧
      src.left s' = [] ∧ missing = m ++ rest ∧ m ≠ [] ∧ (p = [] → l = [] ∧ m = [10])) := by
  obtain ⟨left', hleft, hrest⟩ | ⟨m, hm, hlm, hmissing⟩ := cut_cases h
  · obtain ⟨s', hok, hs'⟩ := readLineLimited_newline s hleft hl.2 hmax
    exact .inl ⟨s', hok, by rw [hs', hrest]⟩
  by_cases hnil : src.left s = []
  · exact .inr (.inl ⟨hnil, readLineLimited_nil s hnil⟩)
  refine .inr (.inr ?_)
  -- the newline is missing, and perhaps more
  obtain ⟨m, c, rfl⟩ := (List.eq_nil_or_concat' m).resolve_left hm
  have hlm' : src.left s ++ m ++ [c] = l ++ [13] ++ [10] := by
    rw [List.append_assoc, hlm, List.append_assoc]
    rfl
  obtain ⟨hlm', hc⟩ := List.append_inj' hlm' rfl
  have hpre : src.left s <+: l ++ [13] := ⟨m, hlm'⟩
  have h10 : 10 ∉ src.left s := fun hmem => by
    have := hpre.subset hmem
    simp [hl.2] at this
  have hlen : (src.left s).length ≤ max := by
    have := hpre.length_le
    rw [List.length_append, List.length_singleton] at this
    omega
  obtain ⟨s', hok, hs'⟩ := readLineLimited_end s h10 hnil hlen
  obtain rfl | ⟨m, d, rfl⟩ := List.eq_nil_or_concat' m
  · rw [List.append_nil] at hlm'
    rw [hlm', stripCr_concat] at hok
    exact ⟨l, s', _, List.prefix_refl l, hok, hs', hmissing, hm, fun h => ⟨h, hc⟩⟩
  · rw [← List.append_assoc] at hlm'
    obtain ⟨hlm', -⟩ := List.append_inj' hlm' rfl
    have hsub : src.left s <+: l := ⟨m, hlm'⟩
    rw [stripCr_plain fun hmem => hl.1 (hsub.subset hmem)] at hok
    exact ⟨src.left s, s', _, hsub, hok, hs', hmissing, hm, fun h => absurd h hnil⟩

end Lines

def hexChar (b : UInt8) : Char := Char.ofNat b.toNat

theorem hexChar_spec (h : isHex b = true) : b < 0x80 ∧ b ≠ 13 ∧ b ≠ 10 ∧
    hexDigit (hexChar b) = some (hexNibble b) ∧ isWhitespace (hexChar b) = false ∧
    hexChar b ≠ ';' ∧ hexChar b ≠ '+' := by
  have hall : ∀ n < 256, isHex (UInt8.ofNat n) = true → UInt8.ofNat n < 0x80 ∧
      UInt8.ofNat n ≠ 13 ∧ UInt8.ofNat n ≠ 10 ∧
      hexDigit (hexChar (UInt8.ofNat n)) = some (hexNibble (UInt8.ofNat n)) ∧
      isWhitespace (hexChar (UInt8.ofNat n)) = false ∧ hexChar (UInt8.ofNat n) ≠ ';' ∧
      hexChar (UInt8.ofNat n) ≠ '+' := by decide +kernel
  have hb := hall b.toNat b.toNat_lt
  rw [UInt8.ofNat_toNat] at hb
  exact hb h

theorem le_foldl_hex (digits : Bytes) (n : Nat) :
    n ≤ digits.foldl (fun n b => 16 * n + hexNibble b) n := by
  induction digits generalizing n with
  | nil => exact Nat.le_refl n
  | cons b digits ih => exact Nat.le_trans (by omega) (ih (16 * n + hexNibble b))

theorem foldlM_pushDigit {digits : Bytes} (h : ∀ b ∈ digits, isHex b = true)
    (hlt : digits.foldl (fun n b => 16 * n + hexNibble b) n < 2 ^ 64) :
    (digits.map hexChar).foldlM pushDigit n =
      some (digits.foldl (fun n b => 16 * n + hexNibble b) n) := by
  induction digits generalizing n with
  | nil => rfl
  | cons b digits ih =>
    obtain ⟨hb, hdigits⟩ := List.forall_mem_cons.mp h
    have hstep : pushDigit n (hexChar b) = some (16 * n + hexNibble b) := by
      have := le_foldl_hex digits (16 * n + hexNibble b)
      rw [pushDigit, (hexChar_spec hb).2.2.2.1, Option.bind_eq_bind, Option.bind_some,
        if_pos (Nat.lt_of_le_of_lt this hlt)]
    rw [List.map_cons, List.foldlM_cons, hstep, Option.bind_eq_bind, Option.bind_some,
      ih hdigits hlt]
    rfl

theorem fromStrRadix16_hex {digits : Bytes} (hne : digits ≠ []) (h : ∀ b ∈ digits, isHex b = true)
    (hlt : hexValue digits < 2 ^ 64) :
    fromStrRadix16 (digits.map hexChar) = some (hexValue digits) := by
  cases digits with
  | nil => exact absurd rfl hne
  | cons b digits =>
    have hplus := (hexChar_spec (h b List.mem_cons_self)).2.2.2.2.2.2
    have hhead : ((b :: digits).map hexChar).head? ≠ some '+' := by simpa using hplus
    simp only [fromStrRadix16, if_neg hhead]
    exact foldlM_pushDigit h hlt

theorem trim_append (hne : s ≠ []) (hs : ∀ c ∈ s, isWhitespace c = false)
    (hb : ∀ c ∈ blanks, isWhitespace c = true) : trim (s ++ blanks) = s := by
  have hdrop : (s ++ blanks).dropWhile isWhitespace = s ++ blanks := by
    cases s with
    | nil => exact absurd rfl hne
    | cons c s => exact List.dropWhile_cons_of_neg (by simp [hs c List.mem_cons_self])
  rw [trim, hdrop, List.rdropWhile, List.reverse_append,
    List.dropWhile_append_of_pos fun c hc => hb c (List.mem_reverse.mp hc), ← List.rdropWhile,
    List.rdropWhile_eq_self_iff]
  intro hne
  rw [hs _ (List.getLast_mem hne)]
  exact Bool.false_ne_true

namespace SizeLine

theorem chunkSize_decode (l : SizeLine size) : chunkSize (LossyUtf8.decode l.text) = .ok size := by
  have hblank : ∀ b ∈ l.blanks, b < 0x80 ∧ isWhitespace (hexChar b) = true ∧ hexChar b ≠ ';' := by
    intro b hb
    obtain rfl | rfl := l.blank b hb <;> decide
  have hdigit := fun b hb => hexChar_spec (l.hex b hb)
  have hascii : ∀ b ∈ l.digits ++ l.blanks, b < 0x80 := fun b hb =>
    (List.mem_append.mp hb).elim (fun h => (hdigit b h).1) fun h => (hblank b h).1
  have hstop : (LossyUtf8.decode l.extensions).takeWhile (· != ';') = [] := by
    cases hext : l.extensions with
    | nil => rfl
    | cons b ext =>
      have hb := l.semicolon (by rw [hext]; nofun)
      rw [hext] at hb
      cases hb
      rw [LossyUtf8.decode_ascii (by decide)]
      rfl
  have htake : (LossyUtf8.decode l.text).takeWhile (· != ';') =
      l.digits.map hexChar ++ l.blanks.map hexChar := by
    rw [text, LossyUtf8.decode_append hascii, List.takeWhile_append_of_pos, hstop, List.append_nil]
    · exact List.map_append
    · intro c hc
      obtain ⟨b, hb, rfl⟩ := List.mem_map.mp hc
      rw [bne_iff_ne]
      exact (List.mem_append.mp hb).elim (fun h => (hdigit b h).2.2.2.2.2.1) fun h =>
        (hblank b h).2.2
  have htrim : trim (l.digits.map hexChar ++ l.blanks.map hexChar) = l.digits.map hexChar := by
    refine trim_append (by simpa using l.digits_ne_nil) ?_ ?_
    · intro c hc
      obtain ⟨b, hb, rfl⟩ := List.mem_map.mp hc
      exact (hdigit b hb).2.2.2.2.1
    · intro c hc
      obtain ⟨b, hb, rfl⟩ := List.mem_map.mp hc
      exact (hblank b hb).2.1
  have hsmall : size < 2 ^ 64 := Nat.lt_of_le_of_lt l.small (by decide)
  have hvalue := fromStrRadix16_hex l.digits_ne_nil l.hex (by rw [l.value]; exact hsmall)
  rw [l.value] at hvalue
  rw [chunkSize, htake, htrim, hvalue]
  exact if_neg (Nat.not_lt.mpr l.small)

theorem cut (l : SizeLine size) (h : p <+: l.text) (hne : p ≠ []) :
    ∃ size', ∃ l' : SizeLine size', l'.text = p := by
  have hfits := Nat.lt_of_le_of_lt h.length_le l.fits
  obtain ⟨r, hr⟩ := h
  rw [text, List.append_assoc] at hr
  obtain ⟨q, hd, -⟩ | ⟨q, rfl, hq⟩ := List.append_eq_append_iff.mp hr
  · have hle : hexValue p ≤ size := by
      rw [← l.value, hd, hexValue, hexValue, List.foldl_append]
      exact le_foldl_hex _ _
    exact ⟨hexValue p, ⟨p, [], [], hne, fun b hb => l.hex b (by rw [hd]; simp [hb]), rfl, nofun,
      fun h => absurd rfl h, by simp, by simpa using hfits, Nat.le_trans hle l.small⟩,
      by simp [text]⟩
  obtain ⟨q', hb, -⟩ | ⟨q', rfl, hext⟩ := List.append_eq_append_iff.mp hq.symm
  · exact ⟨size, ⟨l.digits, q, [], l.digits_ne_nil, l.hex, l.value,
      fun b hmem => l.blank b (by rw [hb]; simp [hmem]), fun h => absurd rfl h, by simp,
      by simpa using hfits, l.small⟩, by simp [text]⟩
  · have hsemi : q' ≠ [] → q'.head? = some 59 := by
      intro hne
      have := l.semicolon (by rw [hext]; simp [hne])
      rwa [hext, List.head?_append_of_ne_nil _ hne] at this
    have hplain : 13 ∉ q' ∧ 10 ∉ q' := by
      have := l.plain
      rw [hext] at this
      simp only [List.mem_append, not_or] at this
      exact ⟨this.1.1, this.2.1⟩
    exact ⟨size, ⟨l.digits, l.blanks, q', l.digits_ne_nil, l.hex, l.value, l.blank, hsemi, hplain,
      by simpa using hfits, l.small⟩, by simp [text]⟩

theorem text_ne_nil (l : SizeLine size) : l.text ≠ [] := by
  simp [text, l.digits_ne_nil]

theorem text_plain (l : SizeLine size) : 13 ∉ l.text ∧ 10 ∉ l.text := by
  have hdigit := fun b hb => hexChar_spec (l.hex b hb)
  have hblank : 13 ∉ l.blanks ∧ 10 ∉ l.blanks :=
    ⟨fun h => absurd (l.blank 13 h) (by decide), fun h => absurd (l.blank 10 h) (by decide)⟩
  simp only [text, List.mem_append, not_or]
  exact ⟨⟨⟨fun h => (hdigit 13 h).2.1 rfl, hblank.1⟩, l.plain.1⟩,
    ⟨⟨fun h => (hdigit 10 h).2.2.1 rfl, hblank.2⟩, l.plain.2⟩⟩

end SizeLine

def Whole (missing : Bytes) : Prop := missing = [] ∨ missing = [10]

theorem not_whole {missing m rest tail : Bytes} (h : missing = m ++ rest ++ tail)
    (hrest : 2 ≤ rest.length) : ¬ Whole missing := by
  have hlen := congrArg List.length h
  simp only [List.length_append] at hlen
  rintro (rfl | rfl)
  · rw [List.length_nil] at hlen
    omega
  · rw [List.length_singleton] at hlen
    omega

theorem Encoding.two_le_write (e : Encoding) : 2 ≤ e.write.length := by
  simp [Encoding.write, crlf]
  omega

theorem two_le_writeTrailers (trailers : List Trailer) : 2 ≤ (writeTrailers trailers).length := by
  simp [writeTrailers, crlf]

theorem decode_isEmpty (h : p ≠ []) : (LossyUtf8.decode p).isEmpty = false := by
  rw [List.isEmpty_eq_false_iff]
  exact LossyUtf8.decode_eq_nil_iff.not.mpr h

section Calls

variable {src : Source UInt8}

inductive Expects : Option Nat → Bytes → Bytes → Prop
  | sizeLine (e : Encoding) : Expects none e.write e.body
  | data (d : Bytes) (e : Encoding) :
    Expects (some d.length) (d ++ (crlf ++ e.write)) (d ++ e.body)

/-- Before a call: `body` is to come, then `tail`, but `missing` will not. -/
structure At (b : BodyReader src) (missing tail body : Bytes) : Prop where
  framing : b.framing = .chunked
  done : b.done = false
  stream : ∃ stream, Expects b.chunkRemaining stream body ∧
    src.left b.reader ++ missing = stream ++ tail

inductive Outcome (bound : Nat) (missing tail : Bytes) :
    Bytes → Except IoError (Bytes × BodyReader src) → Prop
  | more (hgot : got ≠ []) (hat : At b missing tail body)
    (hless : (src.left b.reader).length < bound) :
    Outcome bound missing tail (got ++ body) (.ok (got, b))
  | finished (hwhole : Whole missing) (htail : src.left b.reader = tail) :
    Outcome bound missing tail [] (.ok ([], b))
  | cutShort (hwhole : ¬ Whole missing) (e : IoError) (hkind : e.kind = .unexpectedEof) :
    Outcome bound missing tail body (.error e)

theorem Outcome.mono {r : Except IoError (Bytes × BodyReader src)}
    (h : Outcome bound missing tail body r) (hle : bound ≤ bound') :
    Outcome bound' missing tail body r := by
  cases h with
  | more hgot hat hless => exact .more hgot hat (Nat.lt_of_lt_of_le hless hle)
  | finished hwhole htail => exact .finished hwhole htail
  | cutShort hwhole e hkind => exact .cutShort hwhole e hkind

theorem skipTrailers_nil (s : src.State) (h : src.left s = []) :
    skipTrailers src fuel s = .error closedMidLine := by
  cases fuel with
  | zero => rfl
  | succ fuel =>
    rw [skipTrailers, readLineLimited_nil s h]
    rfl

theorem skipTrailers_blank {s s' : src.State}
    (h : readLineLimited src s maxHeaderBlock = .ok ([], s')) :
    skipTrailers src (fuel + 1) s = .ok s' := by
  rw [skipTrailers, h]
  rfl

theorem skipTrailers_line {s s' : src.State} (hne : p ≠ [])
    (h : readLineLimited src s maxHeaderBlock = .ok (LossyUtf8.decode p, s')) :
    skipTrailers src (fuel + 1) s = skipTrailers src fuel s' := by
  rw [skipTrailers, h]
  simp only [bind, Except.bind, decode_isEmpty hne, Bool.false_eq_true, if_false]

theorem skipTrailers_spec (s : src.State) (trailers : List Trailer)
    (h : src.left s ++ missing = writeTrailers trailers ++ tail) (hm : missing = [] ∨ tail = [])
    (hfuel : (src.left s).length < fuel) :
    (Whole missing ∧ ∃ s', skipTrailers src fuel s = .ok s' ∧ src.left s' = tail) ∨
      (¬ Whole missing ∧ skipTrailers src fuel s = .error closedMidLine) := by
  have hshort : src.left s = [] → ¬ Whole missing := fun hnil => by
    rw [hnil] at h
    exact not_whole (m := []) h (two_le_writeTrailers trailers)
  induction trailers generalizing s fuel with
  | nil =>
    obtain ⟨fuel, rfl⟩ := Nat.exists_eq_succ_of_ne_zero (Nat.ne_of_gt (Nat.zero_lt_of_lt hfuel))
    have h' : src.left s ++ missing = [] ++ crlf ++ tail := h
    obtain ⟨s', hok, hleft⟩ | ⟨hnil, -⟩ | ⟨p, s', m, hp, hok, hleft, hmiss, -, hend⟩ :=
      readLineLimited_cases s (by simp) (by decide : 0 < maxHeaderBlock) h'
    · refine .inl ?_
      obtain rfl | rfl := hm
      · exact ⟨.inl rfl, s', skipTrailers_blank hok, by simpa using hleft⟩
      · obtain ⟨hs', rfl⟩ := List.append_eq_nil_iff.mp hleft
        exact ⟨.inl rfl, s', skipTrailers_blank hok, hs'⟩
    · exact .inr ⟨hshort hnil, skipTrailers_nil s hnil⟩
    · obtain rfl := List.prefix_nil.mp hp
      obtain ⟨-, rfl⟩ := hend rfl
      obtain rfl := hm.resolve_left (by rw [hmiss]; nofun)
      exact .inl ⟨.inr hmiss, s', skipTrailers_blank hok, hleft⟩
  | cons t trailers ih =>
    obtain ⟨fuel, rfl⟩ := Nat.exists_eq_succ_of_ne_zero (Nat.ne_of_gt (Nat.zero_lt_of_lt hfuel))
    have h' : src.left s ++ missing = t.text ++ crlf ++ (writeTrailers trailers ++ tail) := by
      simpa [writeTrailers] using h
    obtain ⟨s', hok, hleft⟩ | ⟨hnil, -⟩ | ⟨p, s', m, -, hok, hleft, hmiss, -, hend⟩ :=
      readLineLimited_cases s t.plain t.fits h'
    · rw [skipTrailers_line t.nonempty hok]
      have hless : (src.left s').length < fuel := by
        have htaken := length_taken h' hleft
        simp only [List.length_append, crlf, List.length_cons] at htaken
        omega
      refine ih s' hleft hless fun hnil => ?_
      rw [hnil] at hleft
      exact not_whole (m := []) hleft (two_le_writeTrailers trailers)
    · exact .inr ⟨hshort hnil, skipTrailers_nil s hnil⟩
    · rw [skipTrailers_line (fun hp => t.nonempty (hend hp).1) hok, skipTrailers_nil s' hleft]
      rw [← List.append_assoc] at hmiss
      exact .inr ⟨not_whole hmiss (two_le_writeTrailers trailers), rfl⟩

theorem readData_outcome (b : BodyReader src) (e : Encoding) (hf : b.framing = .chunked)
    (hdone : b.done = false) (hd : d ≠ []) (hn : 0 < n)
    (h : src.left b.reader ++ missing = d ++ (crlf ++ e.write) ++ tail) :
    Outcome ((src.left b.reader).length) missing tail (d ++ e.body) (b.readData d.length n) := by
  have happ := src.read_append b.reader (min d.length n)
  have hle := src.read_le b.reader (min d.length n)
  have hne := src.read_ne_nil b.reader (min d.length n)
    (Nat.lt_min.mpr ⟨List.length_pos_iff.mpr hd, hn⟩)
  rw [BodyReader.readData]
  cases hread : src.read b.reader (min d.length n) with | mk got reader =>
  rw [hread] at happ hle hne
  dsimp only at happ hle hne ⊢
  by_cases hnil : src.left b.reader = []
  · rw [hnil] at happ h
    obtain ⟨rfl, -⟩ := List.append_eq_nil_iff.mp happ
    exact .cutShort (not_whole h (by simp [crlf])) closedMidChunk rfl
  · have hgot := hne hnil
    have hstream : got ++ (src.left reader ++ missing) = d ++ (crlf ++ e.write ++ tail) := by
      rw [← List.append_assoc, happ, h, List.append_assoc]
    obtain ⟨d', rfl⟩ : got <+: d := List.prefix_of_prefix_length_le ⟨_, hstream⟩
      (List.prefix_append _ _) (Nat.le_trans hle (Nat.min_le_left _ _))
    rw [List.append_assoc] at hstream
    have hless : (src.left reader).length < (src.left b.reader).length := by
      have := List.length_pos_iff.mpr hgot
      rw [← happ, List.length_append]
      omega
    rw [if_neg (by simpa using hgot), List.length_append, Nat.add_sub_cancel_left,
      List.append_assoc]
    refine .more hgot ⟨hf, hdone, _, .data d' e, ?_⟩ hless
    rw [List.append_assoc]
    exact List.append_cancel_left hstream

theorem readData_nil (b : BodyReader src) (h : src.left b.reader = []) (remaining n : Nat) :
    b.readData remaining n = .error closedMidChunk := by
  have hgot := (Source.read_nil (n := min remaining n) h).1
  rw [BodyReader.readData]
  cases hread : src.read b.reader (min remaining n) with | mk got reader =>
  rw [hread] at hgot
  dsimp only at hgot ⊢
  rw [if_pos (List.isEmpty_iff.mpr hgot)]

theorem nextChunk_line (b : BodyReader src) (l : SizeLine size)
    (h : readLineLimited src b.reader maxHeaderBlock = .ok (LossyUtf8.decode l.text, reader)) :
    b.nextChunk n =
      if size = 0 then
        (skipTrailers src ((src.left reader).length + 1) reader).map fun reader =>
          ([], { b with reader, done := true })
      else BodyReader.readData { b with reader, chunkRemaining := some size } size n := by
  rw [BodyReader.nextChunk, h]
  simp only [bind, Except.bind, l.chunkSize_decode]
  split
  · cases skipTrailers src ((src.left reader).length + 1) reader <;> rfl
  · rfl

theorem nextChunk_cut (b : BodyReader src) (l : SizeLine size) (hne : p ≠ []) (hp : p <+: l.text)
    (h : readLineLimited src b.reader maxHeaderBlock = .ok (LossyUtf8.decode p, reader))
    (hnil : src.left reader = []) :
    ∃ e, e.kind = .unexpectedEof ∧ b.nextChunk n = .error e := by
  obtain ⟨size', l', rfl⟩ := l.cut hp hne
  rw [nextChunk_line b l' h]
  by_cases hsize : size' = 0
  · rw [if_pos hsize, skipTrailers_nil reader hnil]
    exact ⟨_, rfl, rfl⟩
  · rw [if_neg hsize, readData_nil _ hnil]
    exact ⟨_, rfl, rfl⟩

theorem nextChunk_nil (b : BodyReader src) (h : src.left b.reader = []) :
    b.nextChunk n = .error closedMidLine := by
  rw [BodyReader.nextChunk, readLineLimited_nil b.reader h]
  rfl

theorem last_outcome (b : BodyReader src) (last : SizeLine 0) (trailers : List Trailer)
    (hm : missing = [] ∨ tail = []) (hne : src.left b.reader ≠ [])
    (h : src.left b.reader ++ missing = last.text ++ crlf ++ (writeTrailers trailers ++ tail)) :
    Outcome ((src.left b.reader).length) missing tail [] (b.nextChunk n) := by
  obtain ⟨s', hok, hleft⟩ | ⟨hnil, -⟩ | ⟨p, s', m, hp, hok, hleft, hmiss, -, hend⟩ :=
    readLineLimited_cases b.reader last.text_plain last.fits h
  · rw [nextChunk_line b last hok, if_pos rfl]
    obtain ⟨hwhole, s'', hskip, hs''⟩ | ⟨hwhole, hskip⟩ :=
      skipTrailers_spec s' trailers hleft hm (Nat.lt_succ_self _)
    · rw [hskip]
      exact .finished hwhole hs''
    · rw [hskip]
      exact .cutShort hwhole closedMidLine rfl
  · exact absurd hnil hne
  · rw [← List.append_assoc] at hmiss
    obtain ⟨e, hkind, herr⟩ := nextChunk_cut (n := n) b last
      (fun hp => last.text_ne_nil (hend hp).1) hp hok hleft
    rw [herr]
    exact .cutShort (not_whole hmiss (two_le_writeTrailers trailers)) e hkind

theorem chunk_outcome (b : BodyReader src) (c : Chunk) (e : Encoding) (hf : b.framing = .chunked)
    (hdone : b.done = false) (hn : 0 < n) (hne : src.left b.reader ≠ [])
    (h : src.left b.reader ++ missing =
      c.line.text ++ crlf ++ (c.data ++ (crlf ++ e.write) ++ tail)) :
    Outcome ((src.left b.reader).length) missing tail (c.data ++ e.body) (b.nextChunk n) := by
  obtain ⟨s', hok, hleft⟩ | ⟨hnil, -⟩ | ⟨p, s', m, hp, hok, hleft, hmiss, -, hend⟩ :=
    readLineLimited_cases b.reader c.line.text_plain c.line.fits h
  · have hsize : c.data.length ≠ 0 := fun h => c.nonempty (List.length_eq_zero_iff.mp h)
    rw [nextChunk_line b c.line hok, if_neg hsize]
    let b' : BodyReader src := { b with reader := s', chunkRemaining := some c.data.length }
    refine (readData_outcome b' e hf hdone c.nonempty hn hleft).mono ?_
    exact Nat.le.intro (length_taken h hleft)
  · exact absurd hnil hne
  · obtain ⟨err, hkind, herr⟩ := nextChunk_cut (n := n) b c.line
      (fun hp => c.line.text_ne_nil (hend hp).1) hp hok hleft
    rw [herr]
    rw [← List.append_assoc] at hmiss
    refine .cutShort (not_whole hmiss ?_) err hkind
    have : 2 ≤ crlf.length := Nat.le_refl 2
    rw [List.length_append, List.length_append]
    omega

theorem nextChunk_outcome (b : BodyReader src) (e : Encoding) (hf : b.framing = .chunked)
    (hdone : b.done = false) (hn : 0 < n) (hm : missing = [] ∨ tail = [])
    (h : src.left b.reader ++ missing = e.write ++ tail) :
    Outcome ((src.left b.reader).length) missing tail e.body (b.nextChunk n) := by
  by_cases hnil : src.left b.reader = []
  · rw [nextChunk_nil b hnil]
    rw [hnil] at h
    exact .cutShort (not_whole (m := []) h e.two_le_write) closedMidLine rfl
  obtain ⟨chunks, last, trailers⟩ := e
  cases chunks with
  | nil =>
    refine last_outcome b last trailers hm hnil ?_
    simpa [Encoding.write] using h
  | cons c chunks =>
    refine chunk_outcome b c ⟨chunks, last, trailers⟩ hf hdone hn hnil ?_
    simpa [Encoding.write, Chunk.write] using h

theorem readChunked_outcome (b : BodyReader src) (h : At b missing tail body) (hn : 0 < n)
    (hm : missing = [] ∨ tail = []) :
    Outcome ((src.left b.reader).length) missing tail body (b.readChunked n) := by
  obtain ⟨hf, hdone, stream, hexpects, hstream⟩ := h
  rw [BodyReader.readChunked]
  cases hrem : b.chunkRemaining with
  | none =>
    rw [hrem] at hexpects
    cases hexpects with | sizeLine e =>
    exact nextChunk_outcome b e hf hdone hn hm hstream
  | some remaining =>
    rw [hrem] at hexpects
    cases hexpects with | data d e =>
    cases d with
    | cons c d => exact readData_outcome b e hf hdone (nofun) hn hstream
    | nil =>
      have h' : src.left b.reader ++ missing = [] ++ crlf ++ (e.write ++ tail) := by
        simpa using hstream
      dsimp only
      obtain ⟨s', hok, hleft⟩ | ⟨hnil, herr⟩ | ⟨p, s', m, hp, hok, hleft, hmiss, -, -⟩ :=
        readLineLimited_cases b.reader (by simp) (by decide : 0 < 8) h'
      · let b' : BodyReader src := { b with reader := s', chunkRemaining := none }
        rw [hok]
        refine (nextChunk_outcome b' e hf hdone hn hm hleft).mono ?_
        exact Nat.le.intro (length_taken h' hleft)
      · rw [herr]
        rw [hnil] at hstream
        refine .cutShort (not_whole (m := []) hstream ?_) closedMidLine rfl
        exact Nat.le_trans e.two_le_write (by simp)
      · obtain rfl := List.prefix_nil.mp hp
        let b' : BodyReader src := { b with reader := s', chunkRemaining := none }
        rw [hok]
        change Outcome _ missing tail _ (b'.nextChunk n)
        rw [nextChunk_nil b' hleft]
        rw [← List.append_assoc] at hmiss
        exact .cutShort (not_whole hmiss e.two_le_write) closedMidLine rfl

theorem drain_spec (hbufs : ∀ i, 0 < bufs i) (hm : missing = [] ∨ tail = []) (i : Nat)
    (out : Bytes) (b : BodyReader src) (h : At b missing tail body)
    (hcap : out.length + body.length ≤ cap) (hfuel : (src.left b.reader).length < fuel) :
    (Whole missing → ∃ b', BodyReader.drain bufs cap fuel i out b = some (.ok (out ++ body, b')) ∧
      src.left b'.reader = tail) ∧
    (¬ Whole missing → ∃ e : IoError, e.kind = .unexpectedEof ∧
      BodyReader.drain bufs cap fuel i out b =
        some (.error ("http1: body read error: " ++ e.message))) := by
  induction fuel generalizing i out b body with
  | zero => exact absurd hfuel (Nat.not_lt_zero _)
  | succ fuel ih =>
    have hcall := readChunked_outcome b h (hbufs i) hm
    have hframe : b.readFrame (bufs i) = b.readChunked (bufs i) := by
      rw [BodyReader.readFrame, h.done, h.framing,
        if_neg (by simpa using Nat.ne_of_gt (hbufs i))]
    rw [BodyReader.drain, hframe]
    cases hr : b.readChunked (bufs i) with
    | error e =>
      rw [hr] at hcall
      cases hcall with | cutShort hwhole _ hkind =>
      exact ⟨fun h => absurd h hwhole, fun _ => ⟨e, hkind, rfl⟩⟩
    | ok r =>
      rw [hr] at hcall
      cases hcall with
      | finished hwhole htail =>
        rw [List.append_nil]
        exact ⟨fun _ => ⟨_, rfl, htail⟩, fun h => absurd hwhole h⟩
      | @more got b' body hgot hat hless =>
        rw [List.length_append] at hcap
        have hrun := ih (i + 1) (out ++ got) b' hat
          (by rw [List.length_append]; omega) (by omega)
        rw [List.append_assoc] at hrun
        cases got with
        | nil => exact absurd rfl hgot
        | cons c got =>
          dsimp only
          rw [if_neg (by omega)]
          exact hrun

/-- However the stream is cut into pieces and whatever the buffers, the body comes back and the rest
of the stream stays; cut short by more than its last newline, it is an error. -/
theorem readBody_chunked (s : src.State) (e : Encoding) (hbufs : ∀ i, 0 < bufs i)
    (hcap : e.body.length ≤ cap) :
    (∀ tail, src.left s = e.write ++ tail →
      ∃ b', (BodyReader.chunked s).readBody bufs cap = some (.ok (e.body, b')) ∧
        src.left b'.reader = tail) ∧
    (∀ missing, src.left s ++ missing = e.write → missing ≠ [] → missing ≠ [10] →
      ∃ err : IoError, err.kind = .unexpectedEof ∧ (BodyReader.chunked s).readBody bufs cap =
        some (.error ("http1: body read error: " ++ err.message))) ∧
    (src.left s ++ [10] = e.write →
      ∃ b', (BodyReader.chunked s).readBody bufs cap = some (.ok (e.body, b')) ∧
        src.left b'.reader = []) := by
  have hcap' : ([] : Bytes).length + e.body.length ≤ cap := by simpa using hcap
  have hfuel := Nat.lt_succ_self (src.left s).length
  refine ⟨fun tail h => ?_, fun missing h hne hne' => ?_, fun h => ?_⟩
  · have hat : At (BodyReader.chunked s) [] tail e.body :=
      ⟨rfl, rfl, _, .sizeLine e, by rw [List.append_nil]; exact h⟩
    exact (drain_spec hbufs (.inl rfl) 0 [] _ hat hcap' hfuel).1 (.inl rfl)
  · have hat : At (BodyReader.chunked s) missing [] e.body :=
      ⟨rfl, rfl, _, .sizeLine e, by rw [List.append_nil]; exact h⟩
    exact (drain_spec hbufs (.inr rfl) 0 [] _ hat hcap' hfuel).2 (not_or.mpr ⟨hne, hne'⟩)
  · have hat : At (BodyReader.chunked s) [10] [] e.body :=
      ⟨rfl, rfl, _, .sizeLine e, by rw [List.append_nil]; exact h⟩
    exact (drain_spec hbufs (.inr rfl) 0 [] _ hat hcap' hfuel).1 (.inr rfl)

end Calls

def digitLine (digit : UInt8) (extensions : Bytes) (size : Nat)
    (h : isHex digit = true ∧ hexNibble digit = size ∧
      (extensions ≠ [] → extensions.head? = some 59) ∧ 13 ∉ extensions ∧ 10 ∉ extensions ∧
      extensions.length < 8 ∧ size ≤ maxChunkSize) : SizeLine size where
  digits := [digit]
  blanks := []
  extensions := extensions
  digits_ne_nil := nofun
  hex b hb := by
    rw [List.mem_singleton.mp hb]
    exact h.1
  value := (Nat.zero_add _).trans h.2.1
  blank := nofun
  semicolon := h.2.2.1
  plain := ⟨h.2.2.2.1, h.2.2.2.2.1⟩
  fits := by
    have := h.2.2.2.2.2.1
    simp [maxHeaderBlock]
    omega
  small := h.2.2.2.2.2.2

def emptyEncoding : Encoding := ⟨[], digitLine 48 [] 0 (by decide), []⟩

/-- `hi`, with an extension and a trailer. -/
def hiEncoding : Encoding where
  chunks := [⟨[104, 105], nofun, digitLine 50 [59, 120] 2 (by decide)⟩]
  last := digitLine 48 [] 0 (by decide)
  trailers := [⟨[65, 58], nofun, by decide, by decide⟩]

/-- The standard buffer. -/
def bufReader : Source UInt8 := Buffered.source (8 * 1024) (by decide)

/-- Cut within the chunk's end, and followed by `!`. -/
def hiPieces : bufReader.State :=
  ⟨[], [[50, 59, 120, 13, 10, 104], [105, 13], [10, 48, 13, 10, 65, 58, 13, 10, 13, 10, 33]],
    by decide⟩

theorem readBody_chunked_hi :
    ∃ b', (BodyReader.chunked hiPieces).readBody (fun _ => 1) 2 = some (.ok ([104, 105], b')) ∧
      bufReader.left b'.reader = [33] :=
  (readBody_chunked hiPieces hiEncoding (fun _ => Nat.one_pos) (by decide)).1 [33] rfl

/-- Without its last newline the empty body is still read. -/
theorem last_newline_spared : ¬ ∀ (src : Source UInt8) (s : src.State) (e : Encoding)
    (missing : Bytes) (cap : Nat), e.body.length ≤ cap → missing ≠ [] →
    src.left s ++ missing = e.write →
    ∃ err, (BodyReader.chunked s).readToEnd cap = some (.error err) := by
  intro h
  let s : bufReader.State := ⟨[], [[48, 13, 10, 13]], by decide⟩
  obtain ⟨err, herr⟩ := h bufReader s emptyEncoding [10] 0 (by decide) (nofun) rfl
  have hat : At (BodyReader.chunked s) [10] [] [] :=
    ⟨rfl, rfl, _, .sizeLine emptyEncoding, rfl⟩
  have hcap : ([] : Bytes).length + ([] : Bytes).length ≤ 0 := Nat.le_refl 0
  obtain ⟨b', hok, -⟩ := (drain_spec (fun _ => by decide : ∀ _ : Nat, 0 < 16 * 1024)
    (.inr rfl) 0 [] _ hat hcap (Nat.lt_succ_self _)).1 (.inr rfl)
  cases hok.symm.trans herr

end AScript.Stdlib.Http1
