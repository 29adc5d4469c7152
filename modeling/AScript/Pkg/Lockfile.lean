import AScript.Lib.Toml

/-! The lockfile and its TOML (`pkg/lock.rs`). -/

namespace AScript.Pkg

open AScript.Lib.Toml

structure LockEntry where
  name : Text
  source : Text
  requirement : Option Text
  resolved : Text
  rev : Option Text
  integrity : Option Text

structure Lockfile where
  version : UInt64
  packages : List LockEntry

namespace Key

def version : Text := ['v', 'e', 'r', 's', 'i', 'o', 'n']

def package : Text := ['p', 'a', 'c', 'k', 'a', 'g', 'e']

def name : Text := ['n', 'a', 'm', 'e']

def source : Text := ['s', 'o', 'u', 'r', 'c', 'e']

def requirement : Text := ['r', 'e', 'q', 'u', 'i', 'r', 'e', 'm', 'e', 'n', 't']

def resolved : Text := ['r', 'e', 's', 'o', 'l', 'v', 'e', 'd']

def rev : Text := ['r', 'e', 'v']

def integrity : Text := ['i', 'n', 't', 'e', 'g', 'r', 'i', 't', 'y']

end Key

def hexDigit (n : Nat) : Char := if n < 10 then Char.ofNat (48 + n) else Char.ofNat (87 + n)

/-- `{:04x}`. -/
def hex4 (n : Nat) : Text :=
  [hexDigit (n / 4096 % 16), hexDigit (n / 256 % 16), hexDigit (n / 16 % 16), hexDigit (n % 16)]

def escapeToml (c : Char) : Text :=
  if c = quote then [slash, quote]
  else if c = slash then [slash, slash]
  else if c = '\n' then [slash, 'n']
  else if c = '\r' then [slash, 'r']
  else if c = '\t' then [slash, 't']
  else if c.toNat < 0x20 then [slash, 'u'] ++ hex4 c.toNat
  else [c]

def tomlStr (s : Text) : Text := quote :: s.flatMap escapeToml ++ [quote]

def field (key s : Text) : Text := key ++ [' ', '=', ' '] ++ tomlStr s ++ ['\n']

def optField (key : Text) : Option Text → Text
  | some s => field key s
  | none => []

def LockEntry.toToml (e : LockEntry) : Text :=
  ['\n', '[', '['] ++ Key.package ++ [']', ']', '\n'] ++ field Key.name e.name ++
    field Key.source e.source ++ optField Key.requirement e.requirement ++
      field Key.resolved e.resolved ++ optField Key.rev e.rev ++ optField Key.integrity e.integrity

def byName (a b : LockEntry) : Bool := List.compareLex compare a.name b.name != .gt

def Lockfile.toToml (l : Lockfile) : Text :=
  Key.version ++ [' ', '=', ' '] ++ Nat.toDigits 10 l.version.toNat ++ ['\n'] ++
    (l.packages.mergeSort byName).flatMap LockEntry.toToml

def lockError {α : Type} (ctx message : String) : Except String α :=
  .error ("ascript.lock: " ++ ctx ++ ": " ++ message)

def notString (key : Text) : String := "`" ++ String.ofList key ++ "` must be a string"

def reqStr (ctx : String) (t : Table) (key : Text) : Except String Text :=
  match t key with
  | some (.string s) => .ok s
  | some _ => lockError ctx (notString key)
  | none => lockError ctx ("`[[package]]` missing `" ++ String.ofList key ++ "`")

def optStr (ctx : String) (t : Table) (key : Text) : Except String (Option Text) :=
  match t key with
  | some (.string s) => .ok (some s)
  | some _ => lockError ctx (notString key)
  | none => .ok none

def parseEntry (ctx : String) (t : Table) : Except String LockEntry := do
  return {
    name := ← reqStr ctx t Key.name
    source := ← reqStr ctx t Key.source
    requirement := ← optStr ctx t Key.requirement
    resolved := ← reqStr ctx t Key.resolved
    rev := ← optStr ctx t Key.rev
    integrity := ← optStr ctx t Key.integrity }

def parseItem (ctx : String) : Value → Except String LockEntry
  | .table t => parseEntry ctx t
  | _ => lockError ctx "each `[[package]]` must be a table"

def parseLockVersion (ctx : String) (t : Table) : Except String UInt64 :=
  match t Key.version with
  | some (.integer n) =>
    if 0 ≤ n then .ok (UInt64.ofNat n.toNat) else lockError ctx "`version` must be an integer"
  | some _ => lockError ctx "`version` must be an integer"
  | none => lockError ctx "missing `version`"

def parsePackages (ctx : String) (t : Table) : Except String (List LockEntry) :=
  match t Key.package with
  | some (.array items) => items.mapM (parseItem ctx)
  | some _ => lockError ctx "`package` must be an array of tables"
  | none => .ok []

def Lockfile.parse (toml : Reader) (ctx : String) (text : Text) : Except String Lockfile :=
  match toml.parse text with
  | .error e => lockError ctx ("malformed TOML: " ++ e)
  | .ok table => do
    let version ← parseLockVersion ctx table
    let packages ← parsePackages ctx table
    return { version, packages := packages.mergeSort byName }

end AScript.Pkg
