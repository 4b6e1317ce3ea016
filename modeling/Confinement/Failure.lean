import Confinement.Errno

/-!
# Failures of a run

Every step of a run reports its failures in one type, by the stage that
failed.  Whatever the stage, the exit status is 1.

A code unit has failures of its own, which the stages that use it wrap.
-/

namespace Confinement

/-- Why a code unit could not be used. -/
inductive UnitError where
  | opening (path : Path) (reason : String)
  | missingSymbol (symbol : String) (reason : String)
  | inspecting (path : Path) (reason : String)
  deriving DecidableEq, Repr

/-- A failure of a code unit in words. -/
def UnitError.message : UnitError → String
  | .opening path reason => "cannot open " ++ path.display ++ ": " ++ reason
  | .missingSymbol symbol reason => "symbol " ++ symbol ++ " not found: " ++ reason
  | .inspecting path reason =>
    "cannot read dependencies of " ++ path.display ++ ": " ++ reason

/-- Why a run failed. -/
inductive Failure where
  | io (e : IoError)
  | configuration (text : String)
  | preload (name : String) (reason : String)
  | nameClash (module : String) (origin : String)
  | staging (path : Path) (reason : String)
  | target (module : String) (reason : String)
  | entryPoint (module : String) (symbol : String) (reason : String)
  | jail (text : String)
  | privilege (text : String)
  | child (text : String)
  deriving DecidableEq, Repr

/-- A failure in words. -/
def Failure.message : Failure → String
  | .io e => "IO error: " ++ e.message
  | .configuration text => "Configuration error: " ++ text
  | .preload name reason => "Unable to preload native extension " ++ name ++ ": " ++ reason
  | .nameClash module origin => "Module " ++ module ++ " is clashing with already loaded " ++ origin
  | .staging path reason => "Failed to stage " ++ path.display ++ ": " ++ reason
  | .target module reason => "Error running module " ++ module ++ ": " ++ reason
  | .entryPoint module symbol reason =>
    "Entry point " ++ symbol ++ " of module " ++ module ++ " failed: " ++ reason
  | .jail text => "Chroot error: " ++ text
  | .privilege text => "Privilege error: " ++ text
  | .child text => "Process error: " ++ text

/-- The exit status a failure leads to. -/
def Failure.exitStatus (_ : Failure) : Int32 := 1

end Confinement
