import AScript.Lib.Message

namespace AScript.Stdlib.Http1

open AScript.Lib.Message

/-- Strings as their bytes. -/
structure Http1Request where
  method : Bytes
  path : Bytes
  headers : List Header
  body : Option Bytes

namespace Http1Request

variable (req : Http1Request)

def callerSetsConnection : Bool := req.headers.any (·.named "connection")

def head : Bytes :=
  req.method ++ ascii " " ++ req.path ++ ascii " HTTP/1.1\r\n" ++ ascii "Host: localhost\r\n" ++
    (if req.callerSetsConnection then [] else ascii "Connection: close\r\n") ++
    (req.headers.flatMap fun h => h.1 ++ ascii ": " ++ h.2 ++ ascii "\r\n") ++
    (match req.body with
      | some body => ascii "Content-Length: " ++ decimal body.length ++ ascii "\r\n"
      | none => []) ++
    ascii "\r\n"

def write : Bytes := req.head ++ req.body.getD []

/-- The request that is meant. -/
def meant : Request where
  method := req.method
  target := req.path
  headers :=
    (ascii "Host", ascii "localhost") ::
      (if req.callerSetsConnection then [] else [(ascii "Connection", ascii "close")]) ++
      req.headers ++
      (match req.body with
        | some body => [(ascii "Content-Length", decimal body.length)]
        | none => [])
  body := req.body.getD []

/-- Elements of the grammar, no second host, no other framing of the body; a length of the
caller's own may only say that there is none. -/
structure Clean : Prop where
  method : isToken req.method = true
  path : isTarget req.path = true
  headers : ∀ h ∈ req.headers, Header.Valid h
  host : req.headers.filter (·.named "host") = []
  coding : req.headers.filter (·.named "transfer-encoding") = []
  length : req.headers.filter (·.named "content-length") = [] ∨
    req.body = none ∧ ∃ h, req.headers.filter (·.named "content-length") = [h] ∧
      parseDecimal h.2 = some 0

theorem write_eq : req.write =
    req.method ++ [0x20] ++ req.path ++ [0x20] ++ ascii "HTTP/1.1" ++ crlf ++
      (writeHeaders req.meant.headers ++ crlf ++ req.body.getD []) := by
  have hcrlf : ascii "\r\n" = crlf := by decide
  have hversion : ascii " HTTP/1.1\r\n" = [0x20] ++ ascii "HTTP/1.1" ++ crlf := by decide
  have hhost : ascii "Host: localhost\r\n" =
      Header.line (ascii "Host", ascii "localhost") ++ crlf := by decide
  have hconn : ascii "Connection: close\r\n" =
      Header.line (ascii "Connection", ascii "close") ++ crlf := by decide
  have hcolon : ascii ": " = [0x3a, 0x20] := by decide
  have hspace : ascii " " = [0x20] := by decide
  have hlength (n : Nat) : ascii "Content-Length: " ++ decimal n =
      Header.line (ascii "Content-Length", decimal n) := by
    have hname : ascii "Content-Length: " = ascii "Content-Length" ++ [0x3a, 0x20] := by decide
    rw [Header.line, hname]
  rw [write, head, hversion, hhost, hconn, hcolon, hcrlf, hspace]
  cases hbody : req.body <;> cases hset : req.callerSetsConnection <;>
    simp [meant, hbody, hset, hlength, writeHeaders, Header.line]

theorem meant_valid (hh : ∀ h ∈ req.headers, Header.Valid h) :
    ∀ h ∈ req.meant.headers, Header.Valid h := by
  intro h hmem
  have hhost : Header.Valid (ascii "Host", ascii "localhost") := ⟨by decide, by decide⟩
  have hconn : Header.Valid (ascii "Connection", ascii "close") := ⟨by decide, by decide⟩
  have hname : isToken (ascii "Content-Length") = true := by decide
  have hlength (n : Nat) : Header.Valid (ascii "Content-Length", decimal n) :=
    ⟨hname, decimal_valid n⟩
  cases hbody : req.body <;> cases hset : req.callerSetsConnection <;>
    simp only [meant, hbody, hset, List.mem_append, List.mem_cons, List.not_mem_nil, or_false,
      Bool.false_eq_true, if_false, if_true] at hmem <;> grind

theorem parse_write (d : Dechunker) (hm : isToken req.method = true) (hp : isTarget req.path = true)
    (hh : ∀ h ∈ req.headers, Header.Valid h) : parseRequest d req.write =
      if (req.meant.headers.filter (·.named "host")).length = 1 then
        (takeBody d req.meant.headers (req.body.getD [])).map fun p =>
          (⟨req.method, req.path, req.meant.headers, p.1⟩, p.2)
      else none := by
  have hcr : 13 ∉ req.method ++ [0x20] ++ req.path ++ [0x20] ++ ascii "HTTP/1.1" := by
    have h₁ := isToken_not_mem hm (b := 13) (by decide)
    have h₂ := isTarget_not_mem hp (b := 13) (by decide)
    have h₃ : (13 : UInt8) ∉ ascii "HTTP/1.1" := by decide
    simp [h₁, h₂, h₃]
  have hlen : req.meant.headers.length <
      (writeHeaders req.meant.headers ++ crlf ++ req.body.getD []).length + 1 := by
    have := length_le_writeHeaders req.meant.headers
    simp only [List.length_append]
    omega
  rw [write_eq, parseRequest, takeLine_append hcr]
  simp only [Option.bind_eq_bind, Option.bind_some, parseRequestLine_write hm hp,
    parseHeaders_write (req.meant_valid hh) hlen]
  split
  · cases takeBody d req.meant.headers (req.body.getD []) <;> rfl
  · rfl

theorem filter_host : req.meant.headers.filter (·.named "host") =
    (ascii "Host", ascii "localhost") :: req.headers.filter (Header.named "host") := by
  have hhost : Header.named "host" (ascii "Host", ascii "localhost") = true := by decide
  have hconn : Header.named "host" (ascii "Connection", ascii "close") = false := by decide
  have hlength (v : Bytes) : Header.named "host" (ascii "Content-Length", v) = false := by
    have : ((ascii "Content-Length").map lower == ascii "host") = false := by decide
    exact this
  cases hbody : req.body <;> cases hset : req.callerSetsConnection <;>
    simp [meant, hbody, hset, hhost, hconn, hlength]

theorem filter_coding : req.meant.headers.filter (·.named "transfer-encoding") =
    req.headers.filter (·.named "transfer-encoding") := by
  have hhost : Header.named "transfer-encoding" (ascii "Host", ascii "localhost") = false := by
    decide
  have hconn : Header.named "transfer-encoding" (ascii "Connection", ascii "close") = false := by
    decide
  have hlength (v : Bytes) :
      Header.named "transfer-encoding" (ascii "Content-Length", v) = false := by
    have : ((ascii "Content-Length").map lower == ascii "transfer-encoding") = false := by decide
    exact this
  cases hbody : req.body <;> cases hset : req.callerSetsConnection <;>
    simp [meant, hbody, hset, hhost, hconn, hlength]

theorem filter_length : req.meant.headers.filter (·.named "content-length") =
    req.headers.filter (·.named "content-length") ++
      (match req.body with
        | some body => [(ascii "Content-Length", decimal body.length)]
        | none => []) := by
  have hhost : Header.named "content-length" (ascii "Host", ascii "localhost") = false := by
    decide
  have hconn : Header.named "content-length" (ascii "Connection", ascii "close") = false := by
    decide
  have hlength (v : Bytes) :
      Header.named "content-length" (ascii "Content-Length", v) = true := by
    have : ((ascii "Content-Length").map lower == ascii "content-length") = true := by decide
    exact this
  cases hbody : req.body <;> cases hset : req.callerSetsConnection <;>
    simp [meant, hbody, hset, hhost, hconn, hlength]

theorem takeBody_meant (d : Dechunker) :
    takeBody d req.meant.headers (req.body.getD []) = some (req.meant.body, []) ↔
      req.headers.filter (·.named "transfer-encoding") = [] ∧
        (req.headers.filter (·.named "content-length") = [] ∨
          req.body = none ∧ ∃ h, req.headers.filter (·.named "content-length") = [h] ∧
            parseDecimal h.2 = some 0) := by
  rw [takeBody, filter_coding, filter_length]
  have hb : req.meant.body = req.body.getD [] := rfl
  rw [hb]
  cases hcoding : req.headers.filter (·.named "transfer-encoding") with
  | cons h hs =>
    simp only [reduceCtorEq, false_and, iff_false]
    -- a coding gives at most what is there, less its framing
    intro heq
    split at heq
    · contradiction
    · contradiction
    · split at heq
      · have := d.shrinks _ _ _ heq
        omega
      · cases heq
    · cases heq
  | nil =>
    cases hlength : req.headers.filter (·.named "content-length") with
    | nil =>
      cases hbody : req.body with
      | none => simp
      | some body => simp [parseDecimal_decimal]
    | cons h hs =>
      cases hbody : req.body with
      | some body =>
        cases hs <;> simp
      | none =>
        cases hs with
        | cons h' hs => simp
        | nil =>
          cases hn : parseDecimal h.2 <;> simp [hn]

/-- One request out, the one that is meant, exactly for these. -/
theorem parse_write_iff (d : Dechunker) :
    parseRequest d req.write = some (req.meant, []) ↔ req.Clean := by
  constructor
  · intro h
    have ⟨hm, hp, hh⟩ := parseRequest_valid h
    have hh' : ∀ h ∈ req.headers, Header.Valid h := fun x hx => hh x (by
      simp only [meant, List.mem_append, List.mem_cons]
      exact .inl (.inr hx))
    rw [req.parse_write d hm hp hh'] at h
    split at h
    next hhost =>
      obtain ⟨⟨body, rest⟩, htake, heq⟩ := Option.map_eq_some_iff.mp h
      cases heq
      obtain ⟨hcoding, hlength⟩ := (req.takeBody_meant d).mp htake
      rw [filter_host, List.length_cons, Nat.add_eq_right] at hhost
      exact ⟨hm, hp, hh', List.length_eq_zero_iff.mp hhost, hcoding, hlength⟩
    next => cases h
  · intro h
    rw [req.parse_write d h.method h.path h.headers, filter_host, h.host,
      if_pos List.length_singleton, (req.takeBody_meant d).mpr ⟨h.coding, h.length⟩]
    rfl

/-- A line break in a value starts a header of its own. -/
theorem line_break_splits : ¬ ∀ (d : Dechunker) (req : Http1Request),
    parseRequest d req.write = some (req.meant, []) := by
  intro h
  let req : Http1Request :=
    ⟨ascii "GET", ascii "/", [(ascii "X", ascii "1\r\nY: 2")], none⟩
  have heq := h ⟨fun _ => none, fun _ _ _ h => nomatch h⟩ req
  obtain ⟨-, -, hh⟩ := parseRequest_valid heq
  have hmem : (ascii "X", ascii "1\r\nY: 2") ∈ req.meant.headers := by decide
  exact absurd (hh _ hmem).2 (by decide)

end Http1Request

end AScript.Stdlib.Http1
