import AScript.Syntax.LexLiterals
import Mathlib.Data.List.DropRight
import Mathlib.Tactic.Common

namespace AScript.Stdlib.Semver

open AScript.Syntax (isWhitespace)

abbrev Text := List Char

def trim (s : Text) : Text := (s.dropWhile isWhitespace).rdropWhile isWhitespace

/-- Before and after the first `c`. -/
def splitOnce (c : Char) : Text → Option (Text × Text)
  | [] => none
  | d :: s => if d = c then some ([], s) else (splitOnce c s).map fun (b, a) => (d :: b, a)

def quoted (what : String) (s : Text) : String := what ++ " '" ++ String.ofList s ++ "'"

/-- A prerelease identifier. -/
inductive PreId
  | num (n : UInt64)
  | alpha (s : Text)
  deriving DecidableEq

def PreId.cmp : PreId → PreId → Ordering
  | .num a, .num b => compare a b
  | .alpha a, .alpha b => List.compareLex compare a b
  | .num _, .alpha _ => .lt
  | .alpha _, .num _ => .gt

structure Version where
  major : UInt64
  minor : UInt64
  patch : UInt64
  /-- Empty for a release. -/
  pre : List PreId
  build : List Text
  deriving DecidableEq

namespace Version

def isPrerelease (v : Version) : Bool := !v.pre.isEmpty

def core (v : Version) : UInt64 × UInt64 × UInt64 := (v.major, v.minor, v.patch)

def compareCore (v w : Version) : Ordering :=
  (compare v.major w.major).then ((compare v.minor w.minor).then (compare v.patch w.patch))

def firstDifference : List (PreId × PreId) → Ordering
  | [] => .eq
  | (a, b) :: rest => (a.cmp b).then (firstDifference rest)

def compareFields (a b : List PreId) : Ordering :=
  (firstDifference (a.zip b)).then (compare a.length b.length)

/-- Build metadata does not take part. -/
def precedence (v w : Version) : Ordering :=
  match v.compareCore w with
  | .eq =>
    match v.pre.isEmpty, w.pre.isEmpty with
    | true, true => .eq
    | true, false => .gt
    | false, true => .lt
    | false, false => compareFields v.pre w.pre
  | ne => ne

end Version

def isNumericIdStrict (s : Text) : Bool :=
  if s.isEmpty || !s.all Char.isDigit then false
  else !(s.length > 1 && s.head? == some '0')

def digitsValue (s : Text) : Nat := s.foldl (fun n c => n * 10 + (c.toNat - '0'.toNat)) 0

def parseU64 (s : Text) : Option UInt64 :=
  if digitsValue s < 2 ^ 64 then some (UInt64.ofNat (digitsValue s)) else none

def parseCoreNum (s : Text) : Except String UInt64 :=
  if !isNumericIdStrict s then .error (quoted "invalid numeric identifier" s)
  else
    match parseU64 s with
    | some n => .ok n
    | none => .error (quoted "numeric overflow in" s)

def isIdChar (c : Char) : Bool := c.isAlphanum || c == '-'

def isAlphanumId (s : Text) : Bool := !s.isEmpty && s.all isIdChar

def parsePreId (part : Text) : Except String PreId :=
  if part.isEmpty then .error "empty prerelease identifier"
  else if part.all Char.isDigit then
    if !isNumericIdStrict part then
      .error (quoted "numeric prerelease identifier" part ++ " must not have a leading zero")
    else
      match parseU64 part with
      | some n => .ok (.num n)
      | none => .error (quoted "numeric prerelease overflow in" part)
  else if !isAlphanumId part then .error (quoted "invalid prerelease identifier" part)
  else .ok (.alpha part)

def parsePrerelease (s : Text) : Except String (List PreId) := (s.splitOn '.').mapM parsePreId

def parseBuildId (part : Text) : Except String Text :=
  if !isAlphanumId part then .error (quoted "invalid build identifier" part) else .ok part

def parseBuild (s : Text) : Except String (List Text) := (s.splitOn '.').mapM parseBuildId

def required (field : Option Text) (missing : String) : Except String UInt64 :=
  match field with
  | some s => parseCoreNum s
  | none => .error missing

def optional {α : Type} (parse : Text → Except String (List α)) :
    Option Text → Except String (List α)
  | some s => parse s
  | none => .ok []

def splitParts (s : Text) : Text × Option Text × Option Text :=
  let (corePre, build) := match splitOnce '+' s with
    | some (cp, b) => (cp, some b)
    | none => (s, none)
  match splitOnce '-' corePre with
  | some (c, p) => (c, some p, build)
  | none => (corePre, none, build)

def leadingV : String :=
  "leading 'v' is not valid in strict SemVer (use '1.2.3', not 'v1.2.3')"

def refuse (bad : Bool) (message : String) : Except String Unit :=
  if bad then .error message else .ok ()

def parseVersion (input : Text) : Except String Version :=
  let s := trim input
  if s.isEmpty then .error "empty version string"
  else if s.head? = some 'v' ∨ s.head? = some 'V' then .error leadingV
  else
    let (core, pre, build) := splitParts s
    let fields := core.splitOn '.'
    do
      let major ← required fields[0]? "missing major version"
      let minor ← required fields[1]? "missing minor version"
      let patch ← required fields[2]? "missing patch version"
      let _ ← refuse fields[3]?.isSome (quoted "too many version fields in" core)
      let pre ← optional parsePrerelease pre
      let build ← optional parseBuild build
      return { major, minor, patch, pre, build }

inductive Op
  | lt
  | lte
  | gt
  | gte
  | eq
  deriving DecidableEq

structure Comparator where
  op : Op
  bound : Version

def Comparator.rawMatches (c : Comparator) (v : Version) : Bool :=
  let ord := v.precedence c.bound
  match c.op with
  | .lt => ord == .lt
  | .lte => ord != .gt
  | .gt => ord == .gt
  | .gte => ord != .lt
  | .eq => ord == .eq

abbrev CompSet := List Comparator

structure Range where
  sets : List CompSet

structure Partial where
  major : Option UInt64
  minor : Option UInt64
  patch : Option UInt64
  pre : List PreId
  deriving DecidableEq

def ver (major minor patch : UInt64) : Version := { major, minor, patch, pre := [], build := [] }

/-- Why there is no range. -/
inductive Failure
  | malformed (message : String)
  /-- An addition has no result, and the build checks for that. -/
  | overflow
  deriving DecidableEq

def malformed {α : Type} (message : String) : Except Failure α := .error (.malformed message)

def orMalformed {α : Type} : Except String α → Except Failure α
  | .ok a => .ok a
  | .error message => malformed message

def addOne (checked : Bool) (n : UInt64) : Except Failure UInt64 :=
  if checked && n.toNat + 1 == 2 ^ 64 then .error .overflow else .ok (n + 1)

def isWildcard (s : Text) : Bool := s == ['x'] || s == ['X'] || s == ['*']

def xfield : Option Text → Except String (Option UInt64)
  | none => .ok none
  | some s => if isWildcard s then .ok none else (parseCoreNum s).map some

def parsePartial (tok : Text) : Except String Partial :=
  let tok := trim tok
  if tok.isEmpty || isWildcard tok then
    .ok { major := none, minor := none, patch := none, pre := [] }
  else if tok.head? = some 'v' ∨ tok.head? = some 'V' then
    .error "leading 'v' is not valid in a range comparator"
  else
    let (core, pre, _) := splitParts tok
    let fields := core.splitOn '.'
    do
      let major ← xfield fields[0]?
      let minor ← xfield fields[1]?
      let patch ← xfield fields[2]?
      let _ ← refuse fields[3]?.isSome (quoted "too many fields in range token" tok)
      let _ ← refuse (major.isNone && (minor.isSome || patch.isSome))
        (quoted "malformed x-range" tok)
      let _ ← refuse (minor.isNone && patch.isSome) (quoted "malformed x-range" tok)
      let pre ← optional parsePrerelease pre
      return { major, minor, patch, pre }

def floor (p : Partial) : Version :=
  { ver (p.major.getD 0) (p.minor.getD 0) (p.patch.getD 0) with pre := p.pre }

def anyVersion : Comparator := { op := .gte, bound := ver 0 0 0 }

def desugarPartial (checked : Bool) (p : Partial) : Except Failure CompSet :=
  match p.major, p.minor, p.patch with
  | none, _, _ => .ok [anyVersion]
  | some maj, none, _ => do
    return [{ op := .gte, bound := ver maj 0 0 },
      { op := .lt, bound := ver (← addOne checked maj) 0 0 }]
  | some maj, some min, none => do
    return [{ op := .gte, bound := ver maj min 0 },
      { op := .lt, bound := ver maj (← addOne checked min) 0 }]
  | some _, some _, some _ => .ok [{ op := .eq, bound := floor p }]

def caretUpper (checked : Bool) (p : Partial) : Except Failure Version :=
  let maj := p.major.getD 0
  let min := p.minor.getD 0
  if maj ≠ 0 then do return ver (← addOne checked maj) 0 0
  else if min ≠ 0 then do return ver 0 (← addOne checked min) 0
  else
    match p.patch.filter (· ≠ 0) with
    | some pat => do return ver 0 0 (← addOne checked pat)
    | none =>
      if p.minor.isSome && p.patch.isSome then .ok (ver 0 0 1)
      else if p.minor.isSome then .ok (ver 0 1 0)
      else .ok (ver 1 0 0)

def desugarCaret (checked : Bool) (p : Partial) : Except Failure CompSet := do
  return [{ op := .gte, bound := floor p }, { op := .lt, bound := ← caretUpper checked p }]

def tildeUpper (checked : Bool) (p : Partial) : Except Failure Version :=
  let maj := p.major.getD 0
  match p.minor with
  | none => do return ver (← addOne checked maj) 0 0
  | some min => do return ver maj (← addOne checked min) 0

def desugarTilde (checked : Bool) (p : Partial) : Except Failure CompSet := do
  return [{ op := .gte, bound := floor p }, { op := .lt, bound := ← tildeUpper checked p }]

def hyphenHigh (checked : Bool) (p : Partial) : Except Failure Comparator :=
  match p.major, p.minor, p.patch with
  | some _, some _, some _ => .ok { op := .lte, bound := floor p }
  | some maj, some min, none => do
    return { op := .lt, bound := ver maj (← addOne checked min) 0 }
  | some maj, none, _ => do return { op := .lt, bound := ver (← addOne checked maj) 0 0 }
  | none, _, _ => .ok anyVersion

def stripPrefix (pre s : Text) : Option Text :=
  if pre.isPrefixOf s then some (s.drop pre.length) else none

def operators : List (Text × Op) :=
  [(['>', '='], .gte), (['<', '='], .lte), (['>'], .gt), (['<'], .lt), (['='], .eq)]

def stripOperator (tok : Text) : Option (Op × Text) :=
  operators.findSome? fun (pre, op) => (stripPrefix pre tok).map (op, ·)

def workspaceProtocol : Text := ['w', 'o', 'r', 'k', 's', 'p', 'a', 'c', 'e', ':']

def npmProtocol : Text := ['n', 'p', 'm', ':']

def parseComparator (checked : Bool) (tok : Text) : Except Failure CompSet :=
  let tok := trim tok
  if tok.isEmpty then malformed "empty comparator"
  else if workspaceProtocol.isPrefixOf tok || npmProtocol.isPrefixOf tok then
    malformed (quoted "unsupported range protocol in" tok)
  else
    match stripPrefix ['^'] tok with
    | some rest => do desugarCaret checked (← orMalformed (parsePartial rest))
    | none =>
      match stripPrefix ['~'] tok with
      | some rest => do
        let rest := (stripPrefix ['>'] rest).getD rest
        desugarTilde checked (← orMalformed (parsePartial rest))
      | none =>
        match stripOperator tok with
        | some (op, rest) => do return [{ op, bound := floor (← orMalformed (parsePartial rest)) }]
        | none => do desugarPartial checked (← orMalformed (parsePartial tok))

/-- `split_whitespace`. -/
def splitWhitespace (s : Text) : List Text := (s.splitOnP isWhitespace).filter (!·.isEmpty)

def parseComparatorSet (checked : Bool) (part : Text) : Except Failure CompSet :=
  let part := trim part
  if part.isEmpty then .ok [anyVersion]
  else
    let toks := splitWhitespace part
    match toks.idxOf? ['-'] with
    | some i =>
      match toks.take i, toks.drop (i + 1) with
      | [lowTok], [highTok] => do
        let low ← orMalformed (parsePartial lowTok)
        let high ← orMalformed (parsePartial highTok)
        return [{ op := .gte, bound := floor low }, ← hyphenHigh checked high]
      | _, _ => malformed (quoted "malformed hyphen range" part)
    | none => do
      let set := (← toks.mapM (parseComparator checked)).flatten
      return if set.isEmpty then [anyVersion] else set

/-- `split` at every `||`. -/
def splitBars : Text → List Text
  | '|' :: '|' :: s => [] :: splitBars s
  | c :: s =>
    match splitBars s with
    | part :: parts => (c :: part) :: parts
    | [] => [[c]]
  | [] => [[]]

def parseRange (checked : Bool) (input : Text) : Except Failure Range := do
  let sets ← (splitBars (trim input)).mapM fun orPart => parseComparatorSet checked (trim orPart)
  return { sets := if sets.isEmpty then [[anyVersion]] else sets }

def setMatches (v : Version) (set : CompSet) : Bool :=
  if !set.all (·.rawMatches v) then false
  else if v.isPrerelease then set.any fun c => c.bound.isPrerelease && c.bound.core == v.core
  else true

def satisfies (v : Version) (range : Range) : Bool := range.sets.any (setMatches v)

/-- A pair of a value and an error, or a panic. -/
inductive Outcome
  | pair (value : Option Text) (err : Option String)
  | panic (message : String)
  deriving DecidableEq

def takes (wantMax : Bool) (v best : Version) : Bool :=
  if wantMax then v.precedence best == .gt else v.precedence best == .lt

def bestOf (wantMax : Bool) (range : Range) :
    Option (Text × Version) → List Text → Except (Text × String) (Option (Text × Version))
  | best, [] => .ok best
  | best, s :: raw =>
    match parseVersion s with
    | .error e => .error (s, e)
    | .ok v =>
      if !satisfies v range then bestOf wantMax range best raw
      else
        match best with
        | none => bestOf wantMax range (some (s, v)) raw
        | some (bs, bv) =>
          bestOf wantMax range (some (if takes wantMax v bv then (s, v) else (bs, bv))) raw

def callSatisfying (checked wantMax : Bool) (raw : List Text) (rangeStr : Text) : Outcome :=
  let func := if wantMax then "maxSatisfying" else "minSatisfying"
  match parseRange checked rangeStr with
  | .error (.malformed e) => .pair none (some ("invalid range: " ++ e))
  | .error .overflow => .panic "attempt to add with overflow"
  | .ok range =>
    match bestOf wantMax range none raw with
    | .error (s, e) => .panic (quoted ("semver." ++ func ++ ": invalid version") s ++ ": " ++ e)
    | .ok best => .pair (best.map Prod.fst) none

end AScript.Stdlib.Semver
