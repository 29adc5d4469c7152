import Mathlib.Data.List.DropRight
import Mathlib.Tactic.Common

namespace AScript.Lib.Url

abbrev Text := List Char

def isC0OrSpace (c : Char) : Bool := c.toNat ≤ 0x20

def isTabOrNewline (c : Char) : Bool := c = '\t' || c = '\n' || c = '\r'

def clean (input : Text) : Text :=
  ((input.dropWhile isC0OrSpace).rdropWhile isC0OrSpace).filter (!isTabOrNewline ·)

def isAlpha (c : Char) : Bool := 'a' ≤ c && c ≤ 'z' || 'A' ≤ c && c ≤ 'Z'

def isDigit (c : Char) : Bool := '0' ≤ c && c ≤ '9'

def isSchemeChar (c : Char) : Bool := isAlpha c || isDigit c || c = '+' || c = '-' || c = '.'

def lower (c : Char) : Char := if 'A' ≤ c ∧ c ≤ 'Z' then Char.ofNat (c.toNat + 32) else c

def scheme (s : Text) : Option (Text × Text) :=
  if s.head?.any isAlpha then
    match s.dropWhile isSchemeChar with
    | ':' :: rest => some ((s.takeWhile isSchemeChar).map lower, rest)
    | _ => none
  else none

/-- Without `ftp`, which has one too, and `file`, which may go without. -/
def special : List Text := [['h', 't', 't', 'p'], ['h', 't', 't', 'p', 's'], ['w', 's'],
  ['w', 's', 's']]

def isSlash (c : Char) : Bool := c = '/' || c = Char.ofNat 92

def endsAuthority (c : Char) : Bool := isSlash c || c = '?' || c = '#'

def authority (rest : Text) : Text := (rest.dropWhile isSlash).takeWhile (!endsAuthority ·)

def afterCredentials (authority : Text) : Text := authority.rtakeWhile (· != '@')

def splitPort (inBrackets : Bool) : Text → Text × Text
  | [] => ([], [])
  | c :: rest =>
    if c = ':' ∧ inBrackets = false then ([], rest)
    else
      let (host, port) := splitPort (c = '[' || inBrackets && c != ']') rest
      (c :: host, port)

def isPort (port : Text) : Bool :=
  port.all isDigit && port.foldl (fun n c => 10 * n + (c.toNat - 48)) 0 ≤ 65535

/-- The host parser proper, which decodes a domain or reads an address and writes it again, is a
parameter. -/
def host (parseHost : Text → Option Text) (input : Text) : Option Text := do
  let (name, rest) ← scheme (clean input)
  let (text, port) := splitPort false (afterCredentials (authority rest))
  if special.contains name && !text.isEmpty && isPort port then parseHost text else none

theorem dropWhile_append_cons {p : α → Bool} (hb : p b = false) (a x : List α) :
    (a ++ b :: x).dropWhile p = a.dropWhile p ++ b :: x := by
  rw [List.dropWhile_append, List.dropWhile_cons_of_neg (by simp [hb])]
  split
  next h => rw [List.isEmpty_iff.mp h, List.nil_append]
  next => rfl

theorem rdropWhile_append_cons {p : α → Bool} (hb : p b = false) (a x : List α) :
    (a ++ b :: x).rdropWhile p = a ++ b :: x.rdropWhile p := by
  have hrev : (a ++ b :: x).reverse = x.reverse ++ b :: a.reverse := by simp
  rw [List.rdropWhile, hrev, dropWhile_append_cons hb, List.rdropWhile]
  simp

theorem rtakeWhile_append {p : α → Bool} (hb : ∀ c ∈ b, p c = true)
    (ha : a = [] ∨ ∃ a' c, a = a' ++ [c] ∧ p c = false) : (a ++ b).rtakeWhile p = b := by
  rw [List.rtakeWhile, List.reverse_append,
    List.takeWhile_append_of_pos fun c hc => hb c (List.mem_reverse.mp hc)]
  obtain rfl | ⟨a', c, rfl, hc⟩ := ha
  · simp
  · have hrev : (a' ++ [c]).reverse = c :: a'.reverse := by simp
    rw [hrev, List.takeWhile_cons_of_neg (by simp [hc])]
    simp

/-- A scheme and exactly two slashes, credentials without slashes of either kind, a host as hosts
are written, a port or at least no second colon, and a rest that starts with no backslash. -/
structure Written where
  scheme : Text
  credentials : Text
  host : Text
  port : Text
  rest : Text
  scheme_plain : ':' ∉ scheme
  credentials_at : credentials = [] ∨ ∃ u, credentials = u ++ ['@']
  credentials_plain : ∀ c ∈ credentials, endsAuthority c = false
  host_ne_nil : host ≠ []
  host_plain : ∀ c ∈ host, endsAuthority c = false ∧ isC0OrSpace c = false ∧ c ≠ '@'
  host_colon : (':' ∉ host ∧ '[' ∉ host) ∨
    ∃ address, host = '[' :: (address ++ [']']) ∧ ']' ∉ address
  port_colon : port = [] ∨ ∃ p, port = ':' :: p ∧ ':' ∉ p
  port_plain : ∀ c ∈ port, endsAuthority c = false ∧ c ≠ '@'
  rest_head : rest = [] ∨ ∃ c r, rest = c :: r ∧ (c = '/' ∨ c = '?' ∨ c = '#')

namespace Written

variable (w : Written)

def url : Text :=
  w.scheme ++ ':' :: '/' :: '/' :: (w.credentials ++ (w.host ++ (w.port ++ w.rest)))

def stripped : Text := ((w.port ++ w.rest).rdropWhile isC0OrSpace).filter (!isTabOrNewline ·)

def credentialsLeft : Text := w.credentials.filter (!isTabOrNewline ·)

theorem clean_url : ∃ s, ':' ∉ s ∧
    clean w.url = s ++ ':' :: '/' :: '/' :: (w.credentialsLeft ++ (w.host ++ w.stripped)) := by
  refine ⟨(w.scheme.dropWhile isC0OrSpace).filter (!isTabOrNewline ·), ?_, ?_⟩
  · intro hmem
    exact w.scheme_plain ((List.dropWhile_sublist _).subset (List.mem_filter.mp hmem).1)
  obtain ⟨init, last, hlast⟩ := (List.eq_nil_or_concat' w.host).resolve_left w.host_ne_nil
  have hplain : isC0OrSpace last = false := (w.host_plain last (by simp [hlast])).2.1
  have hhost : w.host.filter (!isTabOrNewline ·) = w.host := by
    refine List.filter_eq_self.mpr fun c hc => ?_
    have hspace := (w.host_plain c hc).2.1
    rw [Bool.not_eq_true', isTabOrNewline, Bool.or_eq_false_iff, Bool.or_eq_false_iff]
    refine ⟨⟨?_, ?_⟩, ?_⟩ <;>
      · rw [decide_eq_false_iff_not]; rintro rfl; exact absurd hspace (by decide)
  have hsplit : w.scheme.dropWhile isC0OrSpace ++
        ':' :: '/' :: '/' :: (w.credentials ++ (w.host ++ (w.port ++ w.rest))) =
      (w.scheme.dropWhile isC0OrSpace ++ ':' :: '/' :: '/' :: (w.credentials ++ init)) ++
        last :: (w.port ++ w.rest) := by simp [hlast]
  have hjoin : (w.scheme.dropWhile isC0OrSpace ++ ':' :: '/' :: '/' :: (w.credentials ++ init)) ++
        last :: (w.port ++ w.rest).rdropWhile isC0OrSpace =
      w.scheme.dropWhile isC0OrSpace ++ ([':', '/', '/'] ++ (w.credentials ++ (w.host ++
        (w.port ++ w.rest).rdropWhile isC0OrSpace))) := by simp [hlast]
  have hmark : [':', '/', '/'].filter (!isTabOrNewline ·) = [':', '/', '/'] := by decide
  rw [clean, url, dropWhile_append_cons (by decide), hsplit, rdropWhile_append_cons hplain,
    hjoin, List.filter_append, List.filter_append, List.filter_append, List.filter_append, hhost,
    hmark]
  rfl

theorem mem_credentialsLeft (h : c ∈ w.credentialsLeft) : endsAuthority c = false :=
  w.credentials_plain c (List.mem_filter.mp h).1

theorem credentialsLeft_at : w.credentialsLeft = [] ∨
    ∃ u c, w.credentialsLeft = u ++ [c] ∧ (c != '@') = false := by
  obtain h | ⟨u, h⟩ := w.credentials_at
  · exact .inl (by rw [credentialsLeft, h]; rfl)
  · refine .inr ⟨u.filter (!isTabOrNewline ·), '@', ?_, by decide⟩
    rw [credentialsLeft, h, List.filter_append]
    rfl

theorem filter_port {port : Text} (h : ∀ c ∈ port, c ∈ w.port)
    (hcolon : port = [] ∨ ∃ p, port = ':' :: p) :
    (∀ c ∈ port.filter (!isTabOrNewline ·), endsAuthority c = false ∧ c ≠ '@') ∧
      (port.filter (!isTabOrNewline ·) = [] ∨ ∃ p, port.filter (!isTabOrNewline ·) = ':' :: p) := by
  refine ⟨fun c hc => w.port_plain c (h c (List.mem_filter.mp hc).1), ?_⟩
  obtain rfl | ⟨p, rfl⟩ := hcolon
  · exact .inl rfl
  · exact .inr ⟨_, List.filter_cons_of_pos (by decide)⟩

theorem stripped_spec : '@' ∉ w.stripped.takeWhile (!endsAuthority ·) ∧
    (w.stripped.takeWhile (!endsAuthority ·) = [] ∨
      ∃ p, w.stripped.takeWhile (!endsAuthority ·) = ':' :: p) := by
  obtain hrest | ⟨c, r, hrest, hc⟩ := w.rest_head
  · have hcolon : w.port.rdropWhile isC0OrSpace = [] ∨
        ∃ p, w.port.rdropWhile isC0OrSpace = ':' :: p := by
      obtain hport | ⟨p, hport, -⟩ := w.port_colon
      · exact .inl (by rw [hport]; rfl)
      · exact .inr ⟨_, by rw [hport]; exact rdropWhile_append_cons (by decide) [] p⟩
    obtain ⟨hplain, hshape⟩ := w.filter_port
      (fun c hc => (List.rdropWhile_prefix isC0OrSpace _).subset hc) hcolon
    have hself : w.stripped.takeWhile (!endsAuthority ·) =
        (w.port.rdropWhile isC0OrSpace).filter (!isTabOrNewline ·) := by
      rw [stripped, hrest, List.append_nil, List.takeWhile_eq_self_iff]
      exact fun c hc => by simp [(hplain c hc).1]
    rw [hself]
    exact ⟨fun h => (hplain _ h).2 rfl, hshape⟩
  · have hcolon : w.port = [] ∨ ∃ p, w.port = ':' :: p :=
      w.port_colon.imp_right fun ⟨p, hp, _⟩ => ⟨p, hp⟩
    obtain ⟨hplain, hshape⟩ := w.filter_port (fun c hc => hc) hcolon
    have hends : isC0OrSpace c = false ∧ isTabOrNewline c = false ∧ endsAuthority c = true := by
      obtain rfl | rfl | rfl := hc <;> decide
    have hself : w.stripped.takeWhile (!endsAuthority ·) =
        w.port.filter (!isTabOrNewline ·) := by
      rw [stripped, hrest, rdropWhile_append_cons hends.1, List.filter_append,
        List.filter_cons_of_pos (by simp [hends.2.1]),
        List.takeWhile_append_of_pos fun c hc => by simp [(hplain c hc).1],
        List.takeWhile_cons_of_neg (by simp [hends.2.2]), List.append_nil]
    rw [hself]
    exact ⟨fun h => (hplain _ h).2 rfl, hshape⟩

theorem scheme_rest {s : Text} (hs : ':' ∉ s) (h : Url.scheme (s ++ ':' :: r) = some (name, r')) :
    r' = r := by
  rw [Url.scheme, dropWhile_append_cons (by decide)] at h
  split at h
  · cases hd : s.dropWhile isSchemeChar with
    | nil =>
      rw [hd] at h
      cases h
      rfl
    | cons c d =>
      have hc : c ∈ s := (List.dropWhile_sublist _).subset (by rw [hd]; exact List.mem_cons_self)
      rw [hd] at h
      dsimp only [List.cons_append] at h
      split at h
      next heq =>
        cases heq
        exact absurd hc hs
      next => cases h
  · cases h

theorem splitPort_host {t : Text} (ht : t = [] ∨ ∃ p, t = ':' :: p) :
    (splitPort false (w.host ++ t)).1 = w.host := by
  have hend : (splitPort false t).1 = [] := by
    obtain rfl | ⟨p, rfl⟩ := ht <;> rfl
  obtain ⟨hcolon, hbracket⟩ | ⟨address, haddress, hclose⟩ := w.host_colon
  · generalize w.host = host at hcolon hbracket ⊢
    induction host with
    | nil => exact hend
    | cons c host ih =>
      simp only [List.mem_cons, not_or] at hcolon hbracket
      have hc : (decide (c = '[') || false && c != ']') = false := by
        simp [Ne.symm hbracket.1]
      rw [List.cons_append, splitPort, if_neg fun h => hcolon.1 h.1.symm, hc]
      exact congrArg (c :: ·) (ih hcolon.2 hbracket.2)
  · have hin : ∀ a : Text, ']' ∉ a →
        (splitPort true (a ++ ']' :: t)).1 = a ++ [']'] := by
      intro a ha
      induction a with
      | nil =>
        rw [List.nil_append, splitPort, if_neg (by simp)]
        exact congrArg (']' :: ·) hend
      | cons c a ih =>
        simp only [List.mem_cons, not_or] at ha
        have hc : (decide (c = '[') || true && c != ']') = true := by
          simp [Ne.symm ha.1]
        rw [List.cons_append, splitPort, if_neg (by simp), hc]
        exact congrArg (c :: ·) (ih ha.2)
    rw [haddress, List.cons_append, splitPort, if_neg (by simp), List.append_assoc]
    exact congrArg ('[' :: ·) (hin address hclose)

theorem host_url (h : Url.host parseHost w.url = some h') : parseHost w.host = some h' := by
  obtain ⟨s, hs, hclean⟩ := w.clean_url
  rw [Url.host, hclean] at h
  obtain ⟨⟨name, rest⟩, hscheme, h⟩ := Option.bind_eq_some_iff.mp h
  obtain rfl := scheme_rest hs hscheme
  have hplain : ∀ c ∈ w.credentialsLeft ++ w.host, endsAuthority c = false := fun c hc =>
    (List.mem_append.mp hc).elim w.mem_credentialsLeft fun h => (w.host_plain c h).1
  have hslashes : ('/' :: '/' :: (w.credentialsLeft ++ (w.host ++ w.stripped))).dropWhile isSlash =
      w.credentialsLeft ++ w.host ++ w.stripped := by
    rw [List.dropWhile_cons_of_pos (by decide), List.dropWhile_cons_of_pos (by decide),
      ← List.append_assoc]
    cases hhead : w.credentialsLeft ++ w.host with
    | nil => exact absurd (List.append_eq_nil_iff.mp hhead).2 w.host_ne_nil
    | cons c rest =>
      have hc := hplain c (by rw [hhead]; exact List.mem_cons_self)
      rw [List.cons_append, List.dropWhile_cons_of_neg]
      intro hslash
      rw [endsAuthority, hslash] at hc
      cases hc
  have hauthority : authority ('/' :: '/' :: (w.credentialsLeft ++ (w.host ++ w.stripped))) =
      w.credentialsLeft ++ (w.host ++ w.stripped.takeWhile (!endsAuthority ·)) := by
    rw [authority, hslashes, List.takeWhile_append_of_pos fun c hc => by simp [hplain c hc],
      List.append_assoc]
  obtain ⟨hat, hcolon⟩ := w.stripped_spec
  have hafter : afterCredentials (authority
      ('/' :: '/' :: (w.credentialsLeft ++ (w.host ++ w.stripped)))) =
      w.host ++ w.stripped.takeWhile (!endsAuthority ·) := by
    rw [afterCredentials, hauthority, rtakeWhile_append _ w.credentialsLeft_at]
    intro c hc
    rw [bne_iff_ne]
    rintro rfl
    exact (List.mem_append.mp hc).elim (fun h => (w.host_plain _ h).2.2 rfl) hat
  dsimp only at h
  rw [hafter, w.splitPort_host hcolon] at h
  split at h
  · exact h
  · cases h

end Written

end AScript.Lib.Url
