import Confinement.Dependencies
import Confinement.ExtensionSet
import Confinement.Registry

/-!
# Preloading extensions

Before the root changes, every extension of the set is opened with global
binding and stays open: afterwards its file is out of reach.  Extensions are
taken in the order of the set.  Under one policy the first that fails ends the
run, under the other all are tried and the failures reported together.

What is open is then bound in the registry: a loader name under the module
name of its object, any other name as it stands.
-/

namespace Confinement

/-- An extension that stays open. -/
structure Resident where
  name : String
  origin : Path
  unit : CodeUnit
  deriving Inhabited

/-- What is opened for a name: the name itself, or the file that implements
it. -/
def extensionOrigin (fs : FileSystem) (directories : List Path) (suffix name : String) :
    Option Path :=
  if isLoaderName name then some (.ofString name)
  else resolveModule fs name directories (some suffix)

/-- The failures of several extensions as one. -/
def Failure.ofPreloads (failures : List (String × String)) : Failure :=
  .preload (String.intercalate ", " (failures.map (·.1)))
    (String.intercalate "; " (failures.map fun (name, reason) => name ++ ": " ++ reason))

namespace Action

variable {σ : Type}

/-- One extension opened. -/
def preloadOne (ld : Loader σ) (directories : List Path) (suffix name : String) :
    Action σ String Resident := do
  match extensionOrigin (← files) directories suffix name with
  | none => fail ("no module named " ++ name)
  | some origin =>
    let unit ← wrap UnitError.message (load ld origin .global)
    debug ("Preloaded " ++ name ++ " from " ++ origin.display)
    return ⟨name, origin, unit⟩

/-- The action, its failure made a result. -/
def attempt {ε ε' α : Type} (a : Action σ ε α) : Action σ ε' (Except ε α) := fun s =>
  match a.run s with
  | (.ok a, s) => (.ok (.ok a), s)
  | (.error (.failed e), s) => (.ok (.error e), s)
  | (.error (.ended life), s) => (.error (.ended life), s)

/-- Extensions opened one after the other, with the failures met on the way. -/
def preloadEach (ld : Loader σ) (directories : List Path) (suffix : String)
    (policy : PreloadPolicy) :
    List String → Action σ Failure (List Resident × List (String × String))
  | [] => return ([], [])
  | name :: names => do
    match ← attempt (preloadOne ld directories suffix name) with
    | .ok resident =>
      let (residents, failures) ← preloadEach ld directories suffix policy names
      return (resident :: residents, failures)
    | .error reason =>
      match policy with
      | .failFast => fail (.preload name reason)
      | .collectAll =>
        warn ("Failed to preload " ++ name ++ ": " ++ reason)
        let (residents, failures) ← preloadEach ld directories suffix policy names
        return (residents, (name, reason) :: failures)

/-- Every extension of a set opened. -/
def preload (ld : Loader σ) (directories : List Path) (suffix : String) (policy : PreloadPolicy)
    (extensions : ExtensionSet) : Action σ Failure (List Resident) := closingOnFailure ld do
  let (residents, failures) ← preloadEach ld directories suffix policy extensions.names
  if failures.isEmpty then
    info ("Preloaded " ++ toString residents.length ++ " native extensions")
    return residents
  else fail (.ofPreloads failures)

end Action

/-- The name under which a resident extension is bound. -/
def Resident.boundName (r : Resident) : String :=
  if isLoaderName r.name then (moduleName? r.origin).getD r.name else r.name

/-- The registry with resident extensions bound. -/
def Registry.registerResidents (registry : Registry) (residents : List Resident) : Registry :=
  residents.foldl (fun registry r => registry.register r.boundName r.origin) registry

end Confinement
