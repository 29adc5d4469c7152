import AScript.Lib.Url
import AScript.Stdlib.Caps

namespace AScript.Stdlib.UrlHost

open AScript.Lib
open AScript.Lib.Url (Text)

/-- Of `host:port`; brackets are dropped. -/
def hostOfAddr : Text → Text
  | '[' :: rest => rest.takeWhile (· != ']')
  | addr => if addr.count ':' = 1 then addr.takeWhile (· != ':') else addr

/-- What follows the first `://`. -/
def afterScheme : Text → Option Text
  | ':' :: '/' :: '/' :: rest => some rest
  | _ :: url => afterScheme url
  | [] => none

def isBreak (c : Char) : Bool := c = '/' || c = '?' || c = '#'

def hostOfUrl (url : Text) : Option Text := do
  let rest ← afterScheme url
  let authority := rest.takeWhile (!isBreak ·)
  let hostport := authority.rtakeWhile (· != '@')
  if hostport.isEmpty then none else some (hostOfAddr hostport)

/-- No host is dialled but one that the check sees, if any carve-out lets it through. -/
def Seen (parseHost : Text → Option Text) (url : Text) : Prop :=
  ∀ (scope : NetScope) (h : Text), Url.host parseHost url = some h →
    ∃ h', hostOfUrl url = some h' ∧
      (scope.allowsHost (String.ofList h') = true →
        scope.allowsHost (stripBrackets (String.ofList h)) = true)

theorem allowsHost_only (h h' : String) :
    Scope.allowsHost ⟨.all, [h']⟩ h = true ↔ h = h' := by
  simp only [Scope.allowsHost, List.any_cons, List.any_nil, Bool.or_false, beq_iff_eq]
  exact eq_comm

theorem seen_iff (parseHost : Text → Option Text) (url : Text) : Seen parseHost url ↔
    ∀ h, Url.host parseHost url = some h →
      (hostOfUrl url).map String.ofList = some (stripBrackets (String.ofList h)) := by
  constructor
  · intro hseen h hh
    obtain ⟨h', hh', -⟩ := hseen ⟨.all, []⟩ h hh
    obtain ⟨h'', hh'', hallow⟩ := hseen ⟨.all, [String.ofList h']⟩ h hh
    cases hh'.symm.trans hh''
    rw [hh', Option.map_some, (allowsHost_only _ _).mp (hallow ((allowsHost_only _ _).mpr rfl))]
  · intro hsame scope h hh
    obtain ⟨h', hh', heq⟩ := Option.map_eq_some_iff.mp (hsame h hh)
    exact ⟨h', hh', by rw [heq]; exact id⟩

theorem afterScheme_url {s : Text} (hs : ':' ∉ s) (rest : Text) :
    afterScheme (s ++ ':' :: '/' :: '/' :: rest) = some rest := by
  induction s with
  | nil => rfl
  | cons c s ih =>
    obtain ⟨hc, hs⟩ := not_or.mp (List.mem_cons.not.mp hs)
    rw [List.cons_append, afterScheme]
    · exact ih hs
    · rintro _ rfl
      exact absurd rfl hc

theorem isBreak_of_not_ends (h : Url.endsAuthority c = false) : isBreak c = false := by
  simp only [Url.endsAuthority, Url.isSlash, Bool.or_eq_false_iff] at h
  simp only [isBreak, h.1.1.1, h.1.2, h.2, Bool.or_false]

theorem hostport_url (w : Url.Written) :
    ((w.credentials ++ (w.host ++ (w.port ++ w.rest))).takeWhile (!isBreak ·)).rtakeWhile
      (· != '@') = w.host ++ w.port := by
  have hplain : ∀ c ∈ w.credentials ++ (w.host ++ w.port), (!isBreak c) = true := by
    intro c hc
    have hends : Url.endsAuthority c = false := by
      simp only [List.mem_append] at hc
      obtain hc | hc | hc := hc
      · exact w.credentials_plain c hc
      · exact (w.host_plain c hc).1
      · exact (w.port_plain c hc).1
    rw [isBreak_of_not_ends hends]
    rfl
  have hrest : w.rest.takeWhile (!isBreak ·) = [] := by
    obtain hnil | ⟨c, r, hr, hc⟩ := w.rest_head
    · rw [hnil]
      rfl
    · have hbreak : isBreak c = true := by obtain rfl | rfl | rfl := hc <;> rfl
      rw [hr, List.takeWhile_cons_of_neg (by simp [hbreak])]
  have hassoc : w.credentials ++ (w.host ++ (w.port ++ w.rest)) =
      w.credentials ++ (w.host ++ w.port) ++ w.rest := by simp
  rw [hassoc, List.takeWhile_append_of_pos hplain, hrest, List.append_nil]
  refine Url.rtakeWhile_append ?_ (w.credentials_at.imp_right fun ⟨u, hu⟩ => ⟨u, '@', hu, rfl⟩)
  intro c hc
  rw [bne_iff_ne]
  exact (List.mem_append.mp hc).elim (fun h => (w.host_plain c h).2.2) fun h =>
    (w.port_plain c h).2

theorem hostOfAddr_plain (hcolon : ':' ∉ host) (hbracket : '[' ∉ host) (hne : host ≠ [])
    (hport : port = [] ∨ ∃ p, port = ':' :: p ∧ ':' ∉ p) : hostOfAddr (host ++ port) = host := by
  have haddr : hostOfAddr (host ++ port) =
      if (host ++ port).count ':' = 1 then (host ++ port).takeWhile (· != ':')
      else host ++ port := by
    cases host with
    | nil => exact absurd rfl hne
    | cons c host =>
      rw [List.cons_append, hostOfAddr]
      rintro rest heq
      cases heq
      exact hbracket List.mem_cons_self
  rw [haddr, List.count_append, List.count_eq_zero_of_not_mem hcolon, Nat.zero_add]
  obtain rfl | ⟨p, rfl, hp⟩ := hport
  · rw [List.append_nil, List.count_nil, if_neg (by decide)]
  · have htake : ∀ c ∈ host, (c != ':') = true := fun c hc => by
      rw [bne_iff_ne]
      rintro rfl
      exact hcolon hc
    rw [List.count_cons_self, List.count_eq_zero_of_not_mem hp, if_pos rfl,
      List.takeWhile_append_of_pos htake]
    simp

theorem stripBrackets_plain (hbracket : '[' ∉ host) :
    stripBrackets (String.ofList host) = String.ofList host := by
  simp only [stripBrackets, String.toList_ofList]
  split
  next => exact absurd List.mem_cons_self hbracket
  next => rfl

theorem hostOfAddr_url (w : Url.Written) :
    String.ofList (hostOfAddr (w.host ++ w.port)) = stripBrackets (String.ofList w.host) := by
  obtain ⟨hcolon, hbracket⟩ | ⟨address, haddress, hclose⟩ := w.host_colon
  · rw [hostOfAddr_plain hcolon hbracket w.host_ne_nil w.port_colon, stripBrackets_plain hbracket]
  · have htake : ∀ c ∈ address, (c != ']') = true := fun c hc => by
      rw [bne_iff_ne]
      rintro rfl
      exact hclose hc
    rw [haddress, List.cons_append, hostOfAddr, List.append_assoc,
      List.takeWhile_append_of_pos htake]
    simp [stripBrackets]

theorem hostOfUrl_url (w : Url.Written) :
    (hostOfUrl w.url).map String.ofList = some (stripBrackets (String.ofList w.host)) := by
  have hne : (w.host ++ w.port).isEmpty = false := by simp [w.host_ne_nil]
  rw [hostOfUrl, Url.Written.url, afterScheme_url w.scheme_plain, Option.bind_eq_bind,
    Option.bind_some]
  dsimp only
  rw [hostport_url, hne, ← hostOfAddr_url]
  rfl

theorem seen_written_iff (parseHost : Text → Option Text) (w : Url.Written) :
    Seen parseHost w.url ↔ ∀ h, Url.host parseHost w.url = some h →
      stripBrackets (String.ofList w.host) = stripBrackets (String.ofList h) := by
  rw [seen_iff, hostOfUrl_url]
  exact forall_congr' fun h => imp_congr_right fun _ => Option.some_inj

theorem seen_of_written (parseHost : Text → Option Text) (url : Text)
    (h : ∃ w : Url.Written, w.url = url ∧ ∀ h, parseHost w.host = some h →
      stripBrackets (String.ofList w.host) = stripBrackets (String.ofList h)) :
    Seen parseHost url := by
  obtain ⟨w, rfl, hparse⟩ := h
  exact (seen_written_iff parseHost w).mpr fun h hh => hparse h (w.host_url hh)

/-- `http://u@evil.com:80/x`. -/
def plainUrl : Url.Written where
  scheme := "http".toList
  credentials := "u@".toList
  host := "evil.com".toList
  port := ":80".toList
  rest := "/x".toList
  scheme_plain := by decide
  credentials_at := .inr ⟨['u'], rfl⟩
  credentials_plain c hc := by
    have hall : "u@".toList.all (fun c => !Url.endsAuthority c) = true := by decide
    have h := List.all_eq_true.mp hall c hc
    rwa [Bool.not_eq_true'] at h
  host_ne_nil := nofun
  host_plain c hc := by
    have hall : "evil.com".toList.all (fun c =>
        !Url.endsAuthority c && !Url.isC0OrSpace c && c != '@') = true := by decide
    have h := List.all_eq_true.mp hall c hc
    simp only [Bool.and_eq_true, Bool.not_eq_true', bne_iff_ne] at h
    exact ⟨h.1.1, h.1.2, h.2⟩
  host_colon := .inl (by decide)
  port_colon := .inr ⟨['8', '0'], rfl, by decide⟩
  port_plain c hc := by
    have hall : ":80".toList.all (fun c => !Url.endsAuthority c && c != '@') = true := by decide
    have h := List.all_eq_true.mp hall c hc
    simp only [Bool.and_eq_true, Bool.not_eq_true', bne_iff_ne] at h
    exact h
  rest_head := .inr ⟨'/', ['x'], rfl, .inl rfl⟩

theorem seen_of_written_plain : Url.host some "http://u@evil.com:80/x".toList =
    some "evil.com".toList ∧ Seen some "http://u@evil.com:80/x".toList :=
  ⟨by decide, seen_of_written some _ ⟨plainUrl, rfl, fun h hh => by cases hh; rfl⟩⟩

/-- The client stops at the backslash, the check goes on to what follows the at sign. -/
theorem backslash_not_seen : ¬ ∀ parseHost url, Seen parseHost url := by
  intro h
  have hhost : Url.host some "http://evil.com\\@localhost".toList = some "evil.com".toList := by
    decide
  have hseen := (seen_iff some _).mp (h some "http://evil.com\\@localhost".toList) _ hhost
  exact absurd hseen (by decide)

end AScript.Stdlib.UrlHost
