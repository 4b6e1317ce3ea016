import Confinement.Lookup
import Confinement.Session

/-!
# Loading what an object needs

The system's loader knows only the search list it read when the process
began.  Objects that lie elsewhere are opened here by their full path, before
the objects that need them, so that they are mapped when those are opened.

Needed names are followed depth first.  A name is looked at once; one that is
mapped already, or found nowhere, is left alone.  A name that leads deeper is
the name of a directory entry that was not looked at before, so the depth is
bounded by the number of names in the file tree.
-/

namespace Confinement

mutual

/-- The number of names in a file tree. -/
def Node.nameCount : Node → Nat
  | .directory _ entries => nameCountBelow entries
  | _ => 0

/-- The number of names in a directory and below it. -/
def nameCountBelow : List (Bytes × Node) → Nat
  | [] => 0
  | (_, node) :: rest => 1 + node.nameCount + nameCountBelow rest

end

namespace Action

variable {σ : Type}

/-- The names looked at and the units opened so far. -/
structure Visit where
  seen : List String := []
  opened : List CodeUnit := []

/-- What `path` needs, opened, at most `depth` names deep. -/
def loadNeeded (ld : Loader σ) (directories : List Path) :
    (depth : Nat) → (path : Path) → Visit → Action σ UnitError Visit
  | 0, _, visit => return visit
  | depth + 1, path, visit => do
    let names ← needed ld path
    names.foldlM (fun visit name => do
      if visit.seen.contains name then return visit
      let visit := { visit with seen := name :: visit.seen }
      if ← isResident ld name then return visit
      match findLibrary (← files) name directories with
      | none =>
        debug (name ++ " needed by " ++ path.display ++ " is not on the search paths")
        return visit
      | some found =>
        let visit ← loadNeeded ld directories depth found visit
        debug ("Loading " ++ name ++ " for " ++ path.display ++ " from " ++ found.display)
        let unit ← load ld found .global
        return { visit with opened := visit.opened ++ [unit] }) visit

/-- The units opened because `path` needs them, in order. -/
def loadDependencies (ld : Loader σ) (path : Path) (directories : List Path) :
    Action σ UnitError (List CodeUnit) := closingOnFailure ld do
  let depth := (← files).tree.nameCount + 1
  return (← loadNeeded ld directories depth path {}).opened

end Action

end Confinement
