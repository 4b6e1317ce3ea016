import Confinement.Path
import Confinement.Text.Blank

/-!
# Invocations and module names

An invocation fixes one run: the jail's root, the object to run, its entry
point, and what else the command line gave.

An object is known by its file name up to the first dot (`moduleName?`).  The
target of an invocation must have such a name.
-/

namespace Confinement

/-- The part of a file name before its first dot, if the name is text and that
part is not empty. -/
def moduleName? (p : Path) : Option String := do
  let name := Text.before '.' (← Utf8.decode? (← p.fileName?))
  if name.isEmpty then none else some name

/-- One run, as it was asked for. -/
structure Invocation where
  /-- The directory that becomes `/` for the target. -/
  root : Path
  /-- The object to run. -/
  cmd : Path
  entryPoint : String := "main"
  /-- A list file of further extensions. -/
  listFile : Option Path := none
  /-- Only show the extensions found. -/
  listOnly : Bool := false
  /-- The argument file made known to the entry point. -/
  arguments : Option Path := none
  deriving Inhabited

namespace Invocation

/-- Why the target has no module name. -/
inductive Nameless where
  | notAFileName (cmd : Path)
  | emptyName (cmd : Path)

/-- A target without a name, in words. -/
def Nameless.message : Nameless → String
  | .notAFileName cmd => "Invalid command path: " ++ cmd.display
  | .emptyName cmd => "Command " ++ cmd.display ++ " does not name a module"

/-- The module name of the target. -/
def moduleName (i : Invocation) : Except Nameless String :=
  match i.cmd.fileName?.bind Utf8.decode? with
  | none => .error (.notAFileName i.cmd)
  | some file =>
    let name := Text.before '.' file
    if name.isEmpty then .error (.emptyName i.cmd) else .ok name

/-- The directory of the target, which is searched for it inside the jail. -/
def moduleDirectory? (i : Invocation) : Option Path := i.cmd.parent?.filter (!·.isEmpty)

end Invocation

end Confinement
