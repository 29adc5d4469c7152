import AScript.Lib.Lexical

/-! Logical keys (`vm/archive.rs`) and the files that a disk run loads (`vm/run.rs`). -/

namespace AScript.Bundle

open AScript.Lib

abbrev Text := List Char

def dotDot : Text := ['.', '.']

def dotAs : Text := ['.', 'a', 's']

def dotAso : Text := ['.', 'a', 's', 'o']

def pushSegment (segments : List Text) (seg : Text) : List Text :=
  if seg = [] ∨ seg = ['.'] then segments
  else if seg = dotDot then
    match segments.getLast? with
    | some last => if last ≠ dotDot then segments.dropLast else segments ++ [dotDot]
    | none => segments ++ [dotDot]
  else segments ++ [seg]

def defaultAs (key : Text) : Text :=
  if ¬ dotAs <:+ key ∧ ¬ dotAso <:+ key then key ++ dotAs else key

def joinLogical (dir source : Text) : Text :=
  let segments := if dir = [] then [] else (dir.splitOn '/').filter (· ≠ [])
  defaultAs (['/'].intercalate ((source.splitOn '/').foldl pushSegment segments))

def logicalParent (key : Text) : Text := ((key.reverse.dropWhile (· ≠ '/')).drop 1).reverse

def components (source : Text) : List (Seg Text) :=
  ((source.splitOn '/').map segOf).filter (· ≠ .here)

def rsplitFileAtDot (file : Text) : Option Text × Option Text :=
  match file.reverse.dropWhile (· ≠ '.') with
  | [] => (none, some file)
  | [_] => (some file, none)
  | _ :: before => (some before.reverse, some (file.reverse.takeWhile (· ≠ '.')).reverse)

def fileStem (file : Text) : Option Text := (rsplitFileAtDot file).1.or (rsplitFileAtDot file).2

def extensionOf (file : Text) : Option Text :=
  (rsplitFileAtDot file).1.bind fun _ => (rsplitFileAtDot file).2

abbrev RawPath := List (Seg Text)

def join (dir : List Text) (source : Text) : RawPath := dir.map .name ++ components source

def fileName (path : RawPath) : Option Text :=
  match path.getLast? with
  | some (.name file) => some file
  | _ => none

def extension (path : RawPath) : Option Text := (fileName path).bind extensionOf

def withExtension (path : RawPath) (ext : Text) : RawPath :=
  match (fileName path).bind fileStem with
  | some stem => path.dropLast ++ [.name (stem ++ '.' :: ext)]
  | none => path

def canonicalize (path : RawPath) : List Text := path.foldl follow []

def stemPath (dir : List Text) (source : Text) : RawPath :=
  if (extension (join dir source)).isSome then join dir source
  else withExtension (join dir source) ['a', 's']

def moduleFile (dir : List Text) (source : Text) : List Text :=
  canonicalize (withExtension (stemPath dir source) ['a', 's'])

/-- A relative import. -/
structure Specifier where
  text : Text
  dirs : List (Seg Text)
  name : Text
  components_eq : components text = dirs ++ [.name name]
  relative : ['.', '/'] <+: text ∨ ['.', '.', '/'] <+: text

def keyAlong (dir : Text) (s : Specifier) : List Specifier → Text
  | [] => joinLogical dir s.text
  | t :: ts => keyAlong (logicalParent (joinLogical dir s.text)) t ts

def fileAlong (dir : List Text) (s : Specifier) : List Specifier → List Text
  | [] => moduleFile dir s.text
  | t :: ts => fileAlong (moduleFile dir s.text).dropLast t ts

/-- The words of a chain's directories, and its last name. -/
def spotAlong (spot : Spot Text) (s : Specifier) : List Specifier → Spot Text × Text
  | [] => (spot.walk s.dirs, s.name)
  | t :: ts => spotAlong (spot.walk s.dirs) t ts

end AScript.Bundle
