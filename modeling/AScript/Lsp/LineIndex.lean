import AScript.Lib.Measured
import Mathlib.Data.List.Infix
import Mathlib.Data.UInt

/-! Character offsets and the editor's positions (`lsp/line_index.rs`). -/

namespace AScript.Lsp

open AScript.Lib.Measured

structure Position where
  line : UInt32
  character : UInt32
  deriving DecidableEq

def Position.lt (p q : Position) : Prop :=
  p.line < q.line ∨ p.line = q.line ∧ p.character < q.character

def lenUtf16 (c : Char) : UInt32 := if c.toNat < 0x10000 then 1 else 2

/-- `slice::binary_search` on ascending entries: where the value is, or where it would go. -/
def binarySearch (xs : List Nat) (x : Nat) : Except Nat Nat :=
  let i := xs.findIdx (x ≤ ·)
  if xs[i]? = some x then .ok i else .error i

structure LineIndex where
  chars : List Char
  lineStarts : List Nat

def pushStarts (i : Nat) : List Char → List Nat
  | [] => []
  | c :: s => if c = '\n' then (i + 1) :: pushStarts (i + 1) s else pushStarts (i + 1) s

def LineIndex.new (text : List Char) : LineIndex := ⟨text, 0 :: pushStarts 0 text⟩

def LineIndex.position (self : LineIndex) (charOffset : Nat) : Position :=
  let offset := min charOffset self.chars.length
  let line :=
    match binarySearch self.lineStarts offset with
    | .ok l => l
    | .error next => next - 1
  let lineStart := self.lineStarts.getD line 0
  let character := (((self.chars.take offset).drop lineStart).map lenUtf16).sum
  ⟨UInt32.ofNat line, character⟩

def walk (target utf16 : UInt32) (offset : Nat) : List Char → Nat
  | [] => offset
  | c :: s => if utf16 ≥ target then offset else walk target (utf16 + lenUtf16 c) (offset + 1) s

def LineIndex.offset (self : LineIndex) (position : Position) : Nat :=
  let line := position.line.toNat
  match self.lineStarts[line]? with
  | none => self.chars.length
  | some lineStart =>
    let lineEnd := self.lineStarts[line + 1]?.getD self.chars.length
    walk position.character 0 lineStart ((self.chars.take lineEnd).drop lineStart)

/-- A line of a text, by its number: its content stands without the newline. -/
structure IsLine (text : List Char) (line : Nat) (before content after : List Char) : Prop where
  text_eq : text = before ++ (content ++ after)
  starts : before = [] ∨ ∃ b, before = b ++ ['\n']
  plain : '\n' ∉ content
  ends : after = [] ∨ ∃ a, after = '\n' :: a
  index : before.count '\n' = line

/-- The UTF-16 code units of a text. -/
abbrev units : List Char → Nat := width fun c => (lenUtf16 c).toNat

theorem units_cons (c : Char) (s : List Char) :
    units (c :: s) = (lenUtf16 c).toNat + units s := width_cons c s

theorem units_append (s t : List Char) : units (s ++ t) = units s + units t := width_append s t

/-- Every number the protocol counts in 32 bits fits. -/
def Fits (text : List Char) : Prop :=
  ∀ line before content after, IsLine text line before content after →
    line < 2 ^ 32 ∧ units content < 2 ^ 32

theorem lenUtf16_pos (c : Char) : 0 < (lenUtf16 c).toNat := by
  unfold lenUtf16
  split <;> decide

theorem lenUtf16_le (c : Char) : (lenUtf16 c).toNat ≤ 2 := by
  unfold lenUtf16
  split <;> decide

theorem toNat_sum (s : List Char) : (s.map lenUtf16).sum.toNat = units s % 2 ^ 32 := by
  induction s with
  | nil => rfl
  | cons c s ih =>
    rw [List.map_cons, List.sum_cons, UInt32.toNat_add, ih, Nat.add_mod_mod]
    rfl

theorem exists_starts (x : List Char) :
    ∃ before content, x = before ++ content ∧ '\n' ∉ content ∧
      (before = [] ∨ ∃ b, before = b ++ ['\n']) := by
  induction x using List.reverseRecOn with
  | nil => exact ⟨[], [], rfl, List.not_mem_nil, .inl rfl⟩
  | append_singleton x c ih =>
    by_cases hc : c = '\n'
    · exact ⟨x ++ [c], [], (List.append_nil _).symm, List.not_mem_nil, .inr ⟨x, by rw [hc]⟩⟩
    · obtain ⟨before, content, rfl, hplain, hstarts⟩ := ih
      refine ⟨before, content ++ [c], List.append_assoc .., ?_, hstarts⟩
      simpa [hplain] using Ne.symm hc

theorem exists_ends (y : List Char) :
    ∃ content after, y = content ++ after ∧ '\n' ∉ content ∧
      (after = [] ∨ ∃ a, after = '\n' :: a) := by
  induction y with
  | nil => exact ⟨[], [], rfl, List.not_mem_nil, .inl rfl⟩
  | cons c y ih =>
    by_cases hc : c = '\n'
    · exact ⟨[], c :: y, rfl, List.not_mem_nil, .inr ⟨y, by rw [hc]⟩⟩
    · obtain ⟨content, after, rfl, hplain, hends⟩ := ih
      refine ⟨c :: content, after, rfl, ?_, hends⟩
      simpa [hplain] using Ne.symm hc

theorem isLine_at (h : o ≤ text.length) : ∃ line before content after,
    IsLine text line before content after ∧
      before.length ≤ o ∧ o ≤ before.length + content.length := by
  obtain ⟨before, front, hx, hfront, hstarts⟩ := exists_starts (text.take o)
  obtain ⟨back, after, hy, hback, hends⟩ := exists_ends (text.drop o)
  have hlen : o = before.length + front.length := by
    rw [← List.length_append, ← hx, List.length_take, min_eq_left h]
  refine ⟨_, before, front ++ back, after, ⟨?_, hstarts, ?_, hends, rfl⟩, ?_⟩
  · rw [List.append_assoc, ← hy, ← List.append_assoc, ← hx, List.take_append_drop]
  · simp [hfront, hback]
  · rw [List.length_append]
    omega

theorem IsLine.pred (h : IsLine text (line + 1) before content after) :
    ∃ b c a, IsLine text line b c a := by
  obtain ⟨htext, hstarts, -, -, hindex⟩ := h
  obtain rfl | ⟨b, rfl⟩ := hstarts
  · cases hindex
  · obtain ⟨b', c', rfl, hplain, hstarts⟩ := exists_starts b
    refine ⟨b', c', '\n' :: (content ++ after), by simp [htext], hstarts, hplain, .inr ⟨_, rfl⟩, ?_⟩
    simpa [List.count_append, List.count_eq_zero.mpr hplain] using hindex

theorem IsLine.of_le (h : IsLine text line before content after) (hle : l ≤ line) :
    ∃ b c a, IsLine text l b c a := by
  induction hle generalizing before content after with
  | refl => exact ⟨_, _, _, h⟩
  | step _ ih =>
    obtain ⟨b, c, a, h⟩ := h.pred
    exact ih h

theorem IsLine.prefix_content (h : IsLine text line before content after) :
    before ++ content <+: text :=
  ⟨after, by rw [h.text_eq, List.append_assoc]⟩

theorem IsLine.prefix_before (h : IsLine text line before content after) : before <+: text :=
  (List.prefix_append before content).trans h.prefix_content

theorem IsLine.end_lt (h₁ : IsLine text l₁ b₁ c₁ a₁) (h₂ : IsLine text l₂ b₂ c₂ a₂)
    (hlt : l₁ < l₂) : b₁.length + c₁.length < b₂.length := by
  by_contra hle
  rw [not_lt, ← List.length_append] at hle
  have hpre := List.prefix_of_prefix_length_le h₂.prefix_before h₁.prefix_content hle
  have hcount := hpre.sublist.count_le '\n'
  rw [List.count_append, h₁.index, h₂.index, List.count_eq_zero.mpr h₁.plain] at hcount
  omega

theorem IsLine.index_lt (h₁ : IsLine text l₁ b₁ c₁ a₁) (h₂ : IsLine text l₂ b₂ c₂ a₂)
    (hlt : b₁.length < b₂.length) : l₁ < l₂ := by
  obtain ⟨m, hm⟩ := List.prefix_of_prefix_length_le h₁.prefix_before h₂.prefix_before hlt.le
  have hne : m ≠ [] := by
    rintro rfl
    rw [← hm, List.append_nil] at hlt
    exact hlt.false
  have hnewline : '\n' ∈ m := by
    obtain rfl | ⟨b, rfl⟩ := h₂.starts
    · exact absurd (List.append_eq_nil_iff.mp hm).2 hne
    · have hlast := congrArg List.getLast? hm
      rw [List.getLast?_append_of_ne_nil _ hne, List.getLast?_concat] at hlast
      exact List.mem_of_getLast? hlast
  have hcount := congrArg (List.count '\n') hm
  rw [List.count_append, h₁.index, h₂.index] at hcount
  have := List.count_pos_iff.mpr hnewline
  omega

theorem pushStarts_plain (h : '\n' ∉ content) (i : Nat) (after : List Char) :
    pushStarts i (content ++ after) = pushStarts (i + content.length) after := by
  induction content generalizing i with
  | nil => rfl
  | cons c content ih =>
    rw [List.mem_cons, not_or] at h
    rw [List.cons_append, pushStarts, if_neg (Ne.symm h.1), ih h.2, List.length_cons]
    congr 1
    omega

theorem pushStarts_newline (b : List Char) (i : Nat) (rest : List Char) :
    ∃ P, pushStarts i (b ++ '\n' :: rest) =
        P ++ (i + b.length + 1) :: pushStarts (i + b.length + 1) rest ∧
      P.length = b.count '\n' ∧ ∀ x ∈ P, x < i + b.length + 1 := by
  induction b generalizing i with
  | nil => exact ⟨[], rfl, rfl, nofun⟩
  | cons c b ih =>
    obtain ⟨P, hP, hlen, hlt⟩ := ih (i + 1)
    have hshift : i + 1 + b.length + 1 = i + (c :: b).length + 1 := by
      rw [List.length_cons]
      omega
    rw [hshift] at hP hlt
    rw [List.cons_append, pushStarts, hP]
    by_cases hc : c = '\n'
    · refine ⟨(i + 1) :: P, by rw [if_pos hc, List.cons_append], ?_, ?_⟩
      · rw [hc, List.count_cons_self, List.length_cons, hlen]
      · simp only [List.mem_cons, List.length_cons, forall_eq_or_imp]
        exact ⟨by omega, hlt⟩
    · exact ⟨P, by rw [if_neg hc], by rw [List.count_cons_of_ne hc, hlen], hlt⟩

theorem IsLine.lineStarts_eq (h : IsLine text line before content after) :
    ∃ P Q, (LineIndex.new text).lineStarts = P ++ before.length :: Q ∧ P.length = line ∧
      (∀ x ∈ P, x < before.length) ∧
      (after = [] ∧ Q = [] ∨
        ∃ a Q', after = '\n' :: a ∧ Q = (before.length + content.length + 1) :: Q') := by
  obtain ⟨rfl, hstarts, hplain, hends, rfl⟩ := h
  have hrest : after = [] ∧ pushStarts before.length (content ++ after) = [] ∨
      ∃ a Q', after = '\n' :: a ∧ pushStarts before.length (content ++ after) =
        (before.length + content.length + 1) :: Q' := by
    rw [pushStarts_plain hplain]
    obtain rfl | ⟨a, rfl⟩ := hends
    · exact .inl ⟨rfl, rfl⟩
    · exact .inr ⟨a, _, rfl, if_pos rfl⟩
  obtain rfl | ⟨b, rfl⟩ := hstarts
  · exact ⟨[], _, rfl, rfl, nofun, hrest⟩
  · obtain ⟨P, hP, hlen, hlt⟩ := pushStarts_newline b 0 (content ++ after)
    have hb : 0 + b.length + 1 = (b ++ ['\n']).length := by simp
    rw [hb] at hP hlt
    refine ⟨0 :: P, _, ?_, ?_, ?_, hrest⟩
    · rw [LineIndex.new, List.append_assoc, List.singleton_append, hP, List.cons_append]
    · simp [hlen]
    · simp only [List.mem_cons, forall_eq_or_imp]
      exact ⟨by simp, hlt⟩

theorem exists_isLine (h : (LineIndex.new text).lineStarts[l]? = some i) :
    ∃ b c a, IsLine text l b c a := by
  obtain ⟨line, before, content, after, hline, -, hend⟩ := isLine_at (le_refl text.length)
  obtain ⟨P, Q, hstarts, hlen, -, hlast⟩ := hline.lineStarts_eq
  have hafter : after = [] := by
    have := congrArg List.length hline.text_eq
    rw [List.length_append, List.length_append] at this
    exact List.eq_nil_of_length_eq_zero (by omega)
  obtain ⟨-, rfl⟩ | ⟨a, Q', ha, -⟩ := hlast
  · obtain ⟨hl, -⟩ := List.getElem?_eq_some_iff.mp h
    rw [hstarts, List.length_append, List.length_singleton] at hl
    exact hline.of_le (by omega)
  · rw [hafter] at ha
    cases ha

theorem findIdx_starts {P Q : List Nat} (hP : ∀ x ∈ P, x < o) (hQ : ∀ x ∈ Q.head?, o ≤ x) :
    (P ++ Q).findIdx (o ≤ ·) = P.length := by
  induction P with
  | nil =>
    cases Q with
    | nil => rfl
    | cons x Q => simp [List.findIdx_cons, hQ x rfl]
  | cons x P ih =>
    have hx := hP x List.mem_cons_self
    rw [List.cons_append, List.findIdx_cons, decide_eq_false (Nat.not_le.mpr hx), cond_false,
      ih fun y hy => hP y (List.mem_cons_of_mem x hy), List.length_cons]

theorem IsLine.search (h : IsLine text line before content after) (hk : k ≤ content.length) :
    (match binarySearch (LineIndex.new text).lineStarts (before.length + k) with
      | .ok l => l
      | .error next => next - 1) = line := by
  obtain ⟨P, Q, hstarts, rfl, hP, hQ⟩ := h.lineStarts_eq
  have hnext : ∀ x ∈ Q.head?, before.length + k < x := by
    rintro x hx
    obtain ⟨-, rfl⟩ | ⟨a, Q', -, rfl⟩ := hQ
    · cases hx
    · cases hx
      omega
  rw [hstarts, binarySearch]
  rcases Nat.eq_zero_or_pos k with rfl | hpos
  · rw [Nat.add_zero, findIdx_starts hP (by simp)]
    simp
  · have hindex := findIdx_starts (P := P ++ [before.length]) (Q := Q) (o := before.length + k)
      (by
        intro x hx
        rcases List.mem_append.mp hx with hx | hx
        · exact (hP x hx).trans (Nat.lt_add_of_pos_right hpos)
        · rw [List.mem_singleton.mp hx]
          exact Nat.lt_add_of_pos_right hpos)
      fun x hx => (hnext x hx).le
    rw [List.append_assoc, List.singleton_append, List.length_append] at hindex
    rw [hindex]
    have hmiss : (P ++ before.length :: Q)[P.length + [before.length].length]? ≠
        some (before.length + k) := by
      rw [List.getElem?_append_right (Nat.le_add_right _ _), Nat.add_sub_cancel_left,
        List.length_singleton, List.getElem?_cons_succ, ← List.head?_eq_getElem?]
      exact fun he => (hnext _ he).false
    rw [if_neg hmiss]
    rfl

theorem IsLine.getElem?_starts (h : IsLine text line before content after) :
    (LineIndex.new text).lineStarts[line]? = some before.length := by
  obtain ⟨P, Q, hstarts, rfl, -, -⟩ := h.lineStarts_eq
  simp [hstarts]

theorem IsLine.position_eq (h : IsLine text line before content after) (hk : k ≤ content.length) :
    (LineIndex.new text).position (before.length + k) =
      ⟨UInt32.ofNat line, ((content.take k).map lenUtf16).sum⟩ := by
  have hlen : before.length + k ≤ text.length := by
    rw [h.text_eq, List.length_append, List.length_append]
    omega
  have hslice : (text.take (before.length + k)).drop before.length = content.take k := by
    rw [h.text_eq, List.take_length_add_append, List.drop_left, List.take_append_of_le_length hk]
  have hmin : min (before.length + k) (LineIndex.new text).chars.length = before.length + k :=
    min_eq_left hlen
  rw [LineIndex.position, hmin, h.search hk, List.getD_eq_getElem?_getD, h.getElem?_starts,
    Option.getD_some]
  exact congrArg _ (congrArg (fun s => (s.map lenUtf16).sum) hslice)

theorem walk_eq {target utf16 : UInt32} {s : List Char}
    (hfits : ∀ x c y, s = x ++ c :: y → utf16.toNat + units x < target.toNat →
      utf16.toNat + units x + (lenUtf16 c).toNat < 2 ^ 32) (offset : Nat) :
    walk target utf16 offset s =
      offset + reach (fun c => (lenUtf16 c).toNat) (target.toNat - utf16.toNat) s := by
  induction s generalizing utf16 offset with
  | nil => rfl
  | cons c s ih =>
    rw [walk, reach]
    by_cases hge : utf16 ≥ target
    · have := UInt32.le_iff_toNat_le.mp hge
      rw [if_pos hge, if_pos (by omega), Nat.add_zero]
    · have hlt : utf16.toNat < target.toNat := by
        rw [← Nat.not_le]
        exact fun hle => hge (UInt32.le_iff_toNat_le.mpr hle)
      have hstep : (utf16 + lenUtf16 c).toNat = utf16.toNat + (lenUtf16 c).toNat := by
        rw [UInt32.toNat_add]
        exact Nat.mod_eq_of_lt (hfits [] c s rfl hlt)
      rw [if_neg hge, if_neg (by omega), ih, hstep, Nat.sub_sub]
      · omega
      · intro x d y hs hx
        have := hfits (c :: x) d y (by rw [hs, List.cons_append])
        rw [hstep] at hx ⊢
        rw [units_cons] at this
        omega

theorem IsLine.newline_last (h : IsLine text line before content after)
    (hm : after.take 1 = m ++ c :: y) : m = [] ∧ c = '\n' := by
  obtain rfl | ⟨a, rfl⟩ := h.ends
  · cases m <;> cases hm
  · cases m with
    | nil =>
      cases hm
      exact ⟨rfl, rfl⟩
    | cons d m => exact absurd (List.cons.inj hm).2 (by simp)

theorem IsLine.offset_eq (hfits : Fits text) {p : Position}
    (h : IsLine text p.line.toNat before content after) :
    (LineIndex.new text).offset p =
      before.length + reach (fun c => (lenUtf16 c).toNat) p.character.toNat
        (content ++ after.take 1) := by
  have hslice : (text.take ((LineIndex.new text).lineStarts[p.line.toNat + 1]?.getD
      text.length)).drop before.length = content ++ after.take 1 := by
    obtain ⟨P, Q, hstarts, hlen, -, hlast⟩ := h.lineStarts_eq
    have hnext : (LineIndex.new text).lineStarts[p.line.toNat + 1]? = Q.head? := by
      rw [hstarts, ← hlen, List.getElem?_append_right (Nat.le_add_right _ _),
        Nat.add_sub_cancel_left, List.getElem?_cons_succ, List.head?_eq_getElem?]
    rw [hnext]
    obtain ⟨rfl, rfl⟩ | ⟨a, Q', rfl, rfl⟩ := hlast
    · rw [List.head?_nil, Option.getD_none, h.text_eq, List.take_length, List.drop_left,
        List.take_nil]
    · rw [List.head?_cons, Option.getD_some, h.text_eq, Nat.add_assoc,
        List.take_length_add_append, List.drop_left, List.take_length_add_append]
  have hunits := (hfits _ _ _ _ h).2
  rw [LineIndex.offset]
  dsimp only
  rw [h.getElem?_starts]
  dsimp only
  rw [show (LineIndex.new text).chars = text from rfl, hslice, walk_eq]
  · rfl
  · intro x c y hs hx
    have htarget := p.character.toNat_lt
    rw [show (0 : UInt32).toNat = 0 from rfl, Nat.zero_add] at hx ⊢
    rcases List.append_eq_append_iff.mp hs with ⟨m, rfl, hm⟩ | ⟨_ | ⟨d, m⟩, hcontent, hm⟩
    · obtain ⟨rfl, rfl⟩ := h.newline_last hm
      exact Nat.lt_of_le_of_lt hx htarget
    · obtain ⟨-, rfl⟩ := h.newline_last (m := []) hm.symm
      exact Nat.lt_of_le_of_lt hx htarget
    · cases hm
      rw [hcontent, units_append, units_cons] at hunits
      omega

/-- What an editor relies on, for a text and a position sent to it. -/
structure Agrees (text : List Char) (p : Position) : Prop where
  round_trip : ∀ o ≤ text.length,
    (LineIndex.new text).offset ((LineIndex.new text).position o) = o
  increasing : ∀ a b, a < b → b ≤ text.length →
    ((LineIndex.new text).position a).lt ((LineIndex.new text).position b)
  same_line : ∀ before content after, IsLine text p.line.toNat before content after →
    ((LineIndex.new text).position ((LineIndex.new text).offset p)).line = p.line ∧
    before.length ≤ (LineIndex.new text).offset p ∧
    (LineIndex.new text).offset p ≤ before.length + content.length ∧
    (units content ≤ p.character.toNat →
      (LineIndex.new text).offset p = before.length + content.length)
  monotone : ∀ a b : Position, a.lt b →
    (LineIndex.new text).offset a ≤ (LineIndex.new text).offset b

theorem IsLine.line_toNat (hfits : Fits text) (h : IsLine text line before content after) :
    (UInt32.ofNat line).toNat = line := by
  rw [UInt32.toNat_ofNat']
  exact Nat.mod_eq_of_lt (hfits _ _ _ _ h).1

theorem units_take_le (s : List Char) (k : Nat) : units (s.take k) ≤ units s := by
  conv_rhs => rw [← List.take_append_drop k s, units_append]
  exact Nat.le_add_right _ _

theorem IsLine.column_toNat (hfits : Fits text) (h : IsLine text line before content after)
    (k : Nat) : ((content.take k).map lenUtf16).sum.toNat = units (content.take k) := by
  have := (hfits _ _ _ _ h).2
  have := units_take_le content k
  rw [toNat_sum]
  exact Nat.mod_eq_of_lt (by omega)

theorem round_trip (hfits : Fits text) (h : o ≤ text.length) :
    (LineIndex.new text).offset ((LineIndex.new text).position o) = o := by
  obtain ⟨line, before, content, after, hline, hle, hk⟩ := isLine_at h
  obtain ⟨k, rfl⟩ := Nat.exists_eq_add_of_le hle
  have hk : k ≤ content.length := by omega
  have hat : IsLine text (UInt32.ofNat line).toNat before content after := by
    rwa [hline.line_toNat hfits]
  rw [hline.position_eq hk, hat.offset_eq hfits, hline.column_toNat hfits]
  have hsplit : content ++ after.take 1 = content.take k ++ (content.drop k ++ after.take 1) := by
    rw [← List.append_assoc, List.take_append_drop]
  rw [hsplit, reach_width lenUtf16_pos, List.length_take, min_eq_left hk]

theorem units_take_lt {s : List Char} (hj : j < k) (hk : k ≤ s.length) :
    units (s.take j) < units (s.take k) := by
  induction s generalizing j k with
  | nil => exact absurd hk (Nat.not_le.mpr (Nat.zero_lt_of_lt hj))
  | cons c s ih =>
    obtain ⟨k, rfl⟩ := Nat.exists_eq_add_one.mpr (Nat.zero_lt_of_lt hj)
    rw [List.take_succ_cons, units_cons]
    cases j with
    | zero => exact Nat.add_pos_left (lenUtf16_pos c) _
    | succ j =>
      rw [List.take_succ_cons, units_cons]
      exact Nat.add_lt_add_left (ih (Nat.lt_of_succ_lt_succ hj) (Nat.le_of_succ_le_succ hk)) _

theorem increasing (hfits : Fits text) (hab : a < b) (hb : b ≤ text.length) :
    ((LineIndex.new text).position a).lt ((LineIndex.new text).position b) := by
  obtain ⟨l₁, b₁, c₁, a₁, h₁, hle₁, hk₁⟩ := isLine_at (hab.le.trans hb)
  obtain ⟨l₂, b₂, c₂, a₂, h₂, hle₂, hk₂⟩ := isLine_at hb
  obtain ⟨j, rfl⟩ := Nat.exists_eq_add_of_le hle₂
  by_cases hsame : b₂.length ≤ a
  · obtain ⟨i, rfl⟩ := Nat.exists_eq_add_of_le hsame
    rw [h₂.position_eq (by omega), h₂.position_eq (by omega)]
    refine .inr ⟨rfl, ?_⟩
    rw [UInt32.lt_iff_toNat_lt, h₂.column_toNat hfits, h₂.column_toNat hfits]
    exact units_take_lt (by omega) (by omega)
  · have hlt := h₁.index_lt h₂ (by omega)
    obtain ⟨i, rfl⟩ := Nat.exists_eq_add_of_le hle₁
    rw [h₁.position_eq (by omega), h₂.position_eq (by omega)]
    refine .inl ?_
    rwa [UInt32.lt_iff_toNat_lt, h₁.line_toNat hfits, h₂.line_toNat hfits]

theorem fits_of_agrees (h : Agrees text p) : Fits text := by
  intro line before content after hline
  constructor
  · by_contra hbig
    rw [not_lt] at hbig
    obtain ⟨b, c, a, hb⟩ := hline.of_le (Nat.sub_le line (2 ^ 32))
    have hpos : UInt32.ofNat line = UInt32.ofNat (line - 2 ^ 32) := by
      rw [← UInt32.toNat_inj, UInt32.toNat_ofNat', UInt32.toNat_ofNat']
      omega
    have hat := hline.position_eq (Nat.zero_le _)
    have hat' := hb.position_eq (Nat.zero_le _)
    rw [List.take_zero, Nat.add_zero] at hat hat'
    have hlt := hb.end_lt hline (by omega)
    have hle := hline.prefix_before.length_le
    have htrip := h.round_trip before.length hle
    rw [hat, hpos, ← hat', h.round_trip b.length (by omega)] at htrip
    omega
  · by_contra hbig
    rw [not_lt] at hbig
    obtain ⟨x, c, y, rfl, hlt, hle⟩ := exists_reach (by decide) hbig
    have hx : units x < 2 ^ 32 ∧ 2 ^ 32 ≤ units x + (lenUtf16 c).toNat := ⟨hlt, hle⟩
    have hc := lenUtf16_le c
    have hlast := hline.position_eq (k := x.length) (by simp)
    have hover := hline.position_eq (k := x.length + 1) (by simp)
    have hlen := hline.prefix_content.length_le
    rw [List.length_append, List.length_append, List.length_cons] at hlen
    have hstep := h.increasing (before.length + x.length) (before.length + (x.length + 1))
      (by omega) (by omega)
    rw [hlast, hover, List.take_left, List.take_length_add_append] at hstep
    obtain hline | ⟨-, hcolumn⟩ := hstep
    · exact UInt32.lt_irrefl _ hline
    · rw [UInt32.lt_iff_toNat_lt, toNat_sum, toNat_sum, units_append, List.take_succ_cons,
        units_cons] at hcolumn
      change units x % 2 ^ 32 < (units x + ((lenUtf16 c).toNat + 0)) % 2 ^ 32 at hcolumn
      omega

theorem IsLine.offset_le (hfits : Fits text) {p : Position}
    (h : IsLine text p.line.toNat before content after) :
    (LineIndex.new text).offset p ≤ before.length + content.length + (after.take 1).length := by
  have := reach_le_length (w := fun c => (lenUtf16 c).toNat) p.character.toNat
    (content ++ after.take 1)
  rw [List.length_append] at this
  rw [h.offset_eq hfits]
  omega

theorem offset_past {p : Position} (h : (LineIndex.new text).lineStarts[p.line.toNat]? = none) :
    (LineIndex.new text).offset p = text.length := by
  rw [LineIndex.offset]
  dsimp only
  rw [h]
  rfl

theorem offset_le_length (hfits : Fits text) (p : Position) :
    (LineIndex.new text).offset p ≤ text.length := by
  cases hp : (LineIndex.new text).lineStarts[p.line.toNat]? with
  | none => exact (offset_past hp).le
  | some i =>
    obtain ⟨b, c, a, h⟩ := exists_isLine hp
    have hlen := congrArg List.length h.text_eq
    have := h.offset_le hfits
    rw [List.length_append, List.length_append] at hlen
    rw [List.length_take] at this
    omega

theorem monotone (hfits : Fits text) {p q : Position} (h : p.lt q) :
    (LineIndex.new text).offset p ≤ (LineIndex.new text).offset q := by
  cases hq : (LineIndex.new text).lineStarts[q.line.toNat]? with
  | none => exact (offset_past hq).symm ▸ offset_le_length hfits p
  | some i =>
    obtain ⟨before, content, after, hline⟩ := exists_isLine hq
    obtain hlt | ⟨hsame, hcolumn⟩ := h
    · have hlt := UInt32.lt_iff_toNat_lt.mp hlt
      obtain ⟨b, c, a, hp⟩ := hline.of_le hlt.le
      have hend := hp.end_lt hline hlt
      have hle := hp.offset_le hfits
      have := hline.offset_eq hfits
      rw [List.length_take] at hle
      omega
    · have hp := hline
      rw [← hsame] at hp
      rw [hp.offset_eq hfits, hline.offset_eq hfits]
      exact Nat.add_le_add_left (reach_mono (UInt32.lt_iff_toNat_lt.mp hcolumn).le _) _

theorem IsLine.same_line_iff (hfits : Fits text) {p : Position}
    (h : IsLine text p.line.toNat before content after) :
    (((LineIndex.new text).position ((LineIndex.new text).offset p)).line = p.line ∧
      before.length ≤ (LineIndex.new text).offset p ∧
      (LineIndex.new text).offset p ≤ before.length + content.length ∧
      (units content ≤ p.character.toNat →
        (LineIndex.new text).offset p = before.length + content.length)) ↔
    after = [] ∨ p.character.toNat ≤ units content := by
  rw [h.offset_eq hfits]
  constructor
  · rintro ⟨-, -, hle, -⟩
    by_contra hno
    rw [not_or, not_le] at hno
    obtain rfl | ⟨a, rfl⟩ := h.ends
    · exact hno.1 rfl
    · rw [reach_append_ge lenUtf16_pos hno.2.le, List.take_succ_cons,
        reach_cons (Nat.sub_pos_of_lt hno.2)] at hle
      omega
  · intro hin
    have hreach : reach (fun c => (lenUtf16 c).toNat) p.character.toNat (content ++ after.take 1) =
        reach (fun c => (lenUtf16 c).toNat) p.character.toNat content := by
      obtain rfl | hin := hin
      · rw [List.take_nil, List.append_nil]
      · exact reach_append_le hin _
    have hle := reach_le_length (w := fun c => (lenUtf16 c).toNat) p.character.toNat content
    rw [hreach, h.position_eq hle]
    refine ⟨UInt32.ofNat_toNat, Nat.le_add_right _ _, Nat.add_le_add_left hle _, fun hge => ?_⟩
    have hall := reach_append_ge lenUtf16_pos hge []
    rw [List.append_nil] at hall
    rw [hall]
    rfl

/-- Positions and offsets agree just where every number fits in 32 bits and the column of the
position is not past the newline of its line. -/
theorem agrees_iff (text : List Char) (p : Position) :
    Agrees text p ↔ Fits text ∧ ∀ before content after,
      IsLine text p.line.toNat before content after →
        after = [] ∨ p.character.toNat ≤ units content := by
  constructor
  · intro h
    have hfits := fits_of_agrees h
    exact ⟨hfits, fun b c a hline => (hline.same_line_iff hfits).mp (h.same_line b c a hline)⟩
  · rintro ⟨hfits, hin⟩
    exact ⟨fun o => round_trip hfits, fun a b => increasing hfits,
      fun b c a hline => (hline.same_line_iff hfits).mpr (hin b c a hline),
      fun a b => monotone hfits⟩

/-- Column five of the first of two short lines is an offset of the second. -/
theorem offset_leaves_line : (LineIndex.new "a\nb".toList).offset ⟨0, 5⟩ = 2 ∧
    ((LineIndex.new "a\nb".toList).position 2).line = 1 ∧ ¬ Agrees "a\nb".toList ⟨0, 5⟩ := by
  refine ⟨by decide, by decide, fun h => ?_⟩
  have hline : IsLine "a\nb".toList 0 [] ['a'] ['\n', 'b'] :=
    ⟨rfl, .inl rfl, by decide, .inr ⟨_, rfl⟩, rfl⟩
  have hleft := (h.same_line _ _ _ hline).1
  revert hleft
  decide

end AScript.Lsp
