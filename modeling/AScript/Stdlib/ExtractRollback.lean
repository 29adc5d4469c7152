import AScript.Stdlib.ExtractFits

namespace AScript.Stdlib.Extract

open AScript.Lib

section

variable {limit : Nat} {osText : OsError → String} {newMode : Nat} {fault : Nat → Option Nat}

structure State (limit : Nat) (start : FileTree Name) (root : Path)
    (files : List (Path × List UInt8)) (d : Disk) : Prop where
  running : Running start root (files.map Prod.fst) d
  wrote : Wrote limit start files d.tree

end

section

variable (limit : Nat) (osText : OsError → String) (newMode : Nat) (fault : Nat → Option Nat)

variable {limit osText newMode fault}

end

end AScript.Stdlib.Extract
