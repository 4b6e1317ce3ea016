import Confinement.Dependencies
import Confinement.FileSystem.Write
import Confinement.Text.Quoted
import Confinement.Standpoint

/-!
# Inside the jail

The child makes the jail's root its own, asserts its real identity, derives
its search list anew, and only then turns to the loader: it finds the target,
opens what the target needs, opens the target itself for none but itself, and
runs the entry point.
-/

namespace Confinement

/-! ## The jail's root -/

/-- Why a path is no jail root. -/
inductive RootProblem where
  | unresolved (root : Path) (e : IoError)
  | notDirectory (root : Path)

/-- A refused jail root in words. -/
def RootProblem.message : RootProblem → String
  | .unresolved root e => "Invalid jail root " ++ root.display ++ ": " ++ e.message
  | .notDirectory root => "Jail root " ++ root.display ++ " is not a directory"

/-- The absolute path of an existing directory. -/
def validateRoot (fs : FileSystem) (root : Path) : Except RootProblem Path :=
  match fs.canonical root with
  | .error e => .error (.unresolved root e)
  | .ok path => if fs.isDirectory path then .ok path else .error (.notDirectory path)

/-- Everything the child needs, fixed before it begins. -/
structure JailPlan where
  jailRoot : Path
  module : String
  moduleDirectory : Option Path
  entryPoint : String
  arguments : Option Path
  hostStandpoint : Standpoint
  distinct : List Path
  staging : Path
  suffix : String
  deriving Inhabited

namespace Action

variable {σ : Type}

/-- The directory that a change of root leads to, or the error it meets. -/
def changeRoot (s : Session σ) (root : Path) : Except Errno (Session σ) :=
  match s.fs.find true root with
  | .error (.system e) => .error e
  | .error _ => .error .invalid
  | .ok (location, .directory mode _) =>
    if !s.fs.permits .search mode then .error .accessDenied
    else
      match s.kernel .changeRoot with
      | some e => .error e
      | none =>
        if s.ids.isPrivileged || s.mayChangeRoot then
          .ok { s with fs := { s.fs with root := location } }
        else .error .notPermitted
  | .ok _ => .error .notDirectory

/-- A change to the root directory. -/
def changeToRoot (s : Session σ) : Except Errno (Session σ) :=
  match s.kernel .changeDirectory with
  | some e => .error e
  | none => .ok { s with fs := { s.fs with cwd := s.fs.root } }

/-- The process inside the jail. -/
def enterJail (root : Path) : Action σ Failure Unit := do
  match changeRoot (← get) root with
  | .error e => fail (.jail ("chroot(" ++ root.display ++ ") failed: " ++ e.symbol))
  | .ok s => set s
  match changeToRoot (← get) with
  | .error e => fail (.jail ("Failed to change to chroot root: " ++ e.symbol))
  | .ok s => set s
  debug ("Entered jail " ++ root.display)

/-- The real identity asserted.  A superuser's rights to files are given up
with its powers. -/
def assertIdentity : Action σ Failure IdentityChange := do
  let s ← get
  let (result, ids) := s.ids.reassert s.kernel
  set { s with ids, fs := { s.fs with superuser := s.fs.superuser && ids.isPrivileged } }
  note (s.ids.reassertLog s.kernel)
  lift (result.mapError fun fault => .privilege fault.message)

/-! ## The target -/

/-- A failure on the way to the entry point, as the run reports it. -/
def targetFailure (module : String) (e : UnitError) : Failure := .target module e.message

/-- A failure of the entry point, as the run reports it. -/
def entryFailure (module : String) : UnitError → Failure
  | .missingSymbol symbol reason => .entryPoint module symbol reason
  | e => targetFailure module e

/-- The target found, opened after all it needs, and its entry point run.  The
target is closed before what it needs. -/
def loadAndInvoke (ld : Loader σ) (module entryPoint : String) (directories : List Path)
    (suffix : String) : Action σ Failure Unit := closingAll ld do
  match resolveModule (← files) module directories (some suffix) with
  | none => fail (.target module ("No module named '" ++ module ++ "'"))
  | some path =>
    let _ ← wrap (targetFailure module) (loadDependencies ld path directories)
    closingAll ld do
      let unit ← wrap (targetFailure module) (load ld path .local)
      info ("Calling " ++ module ++ "." ++ entryPoint ++ " from " ++ unit.origin.display)
      wrap (entryFailure module) (invoke ld unit entryPoint)

/-- The exit status of a process that gives up on a value it cannot use. -/
def abortedStatus : Int32 := 101

/-- The argument file made known to the entry point, if there is one.  A value
with a NUL byte cannot be put into the environment, and the process ends. -/
def exposeArguments (arguments : Option Path) : Action σ Failure Unit :=
  match arguments with
  | none => return ()
  | some path =>
    if path.bytes.contains 0 then throw (.ended (.ended (.exited abortedStatus)))
    else modify fun s => { s with env := s.env.set argumentsVariable path.bytes }

/-- The jail entered and the target run in it. -/
def runInJail (ld : Loader σ) (plan : JailPlan) : Action σ Failure Unit := do
  enterJail plan.jailRoot
  let _ ← assertIdentity
  let standpoint :=
    plan.hostStandpoint.insideJail (← files) plan.moduleDirectory plan.distinct plan.staging
  debug ("[" ++ (← get).runId ++ "] Inside jail at " ++ standpoint.cwd.display ++
    " (staged under " ++ standpoint.stagingRoot.display ++ "), search paths: [" ++
    String.intercalate ", " (standpoint.searchPaths.map Text.quotePath) ++ "]")
  exposeArguments plan.arguments
  loadAndInvoke ld plan.module plan.entryPoint standpoint.searchPaths plan.suffix

end Action

/-- The life of a child that runs a plan, and the session it leaves.  A
failure goes to its standard error. -/
def childLife {σ : Type} (ld : Loader σ) (plan : JailPlan) (s : Session σ) : Life × Session σ :=
  match (Action.runInJail ld plan).run s with
  | (.ok (), s) => (.ended (.exited 0), s)
  | (.error (.failed e), s) =>
    (.ended (.exited e.exitStatus), { s with stderr := s.stderr ++ "Error: " ++ e.message ++ "\n" })
  | (.error (.ended life), s) => (life, s)

end Confinement
