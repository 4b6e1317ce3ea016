import Confinement.Credentials
import Confinement.Failure
import Confinement.SearchList

/-!
# Sessions

A session is the state of a running process: the files it sees, its
environment and identity, what it has written, its children, the state of its
loader, and a journal of what the loader was asked.  An action moves a session
along and may stop, with a failure or because the process ended.

The loader is a parameter.  It answers four questions: open an object, list
what an object needs, tell whether a library is mapped, and run an entry
point.  Its answers may depend on the files and on a state of its own, and
running an entry point may change files or end the process.  Every question is
entered in the journal before it is answered, with the circumstances in which
it was asked.
-/

namespace Confinement

/-! ## Outcomes -/

/-- How a process ended. -/
inductive Outcome where
  | exited (status : Int32)
  | signaled (signal : Int32)
  deriving DecidableEq, Repr

namespace Outcome

/-- The entry point returned normally. -/
def isSuccess (o : Outcome) : Bool := o = .exited 0

/-- The exit status of a shell: a signal counts from 128 on. -/
def exitStatus : Outcome → Int32
  | .exited status => status
  | .signaled signal => 128 + signal

/-- An outcome as the log shows it. -/
def describe : Outcome → String
  | .exited status => "Exited(" ++ toString status.toInt ++ ")"
  | .signaled signal => "Signaled(" ++ toString signal.toInt ++ ")"

end Outcome

/-- How far a process came: it ended, was stopped, or sleeps until a signal
ends it; or its parent has taken notice of its end. -/
inductive Life where
  | ended (o : Outcome)
  | stopped
  | asleep
  | reaped
  deriving DecidableEq, Repr

/-- A child of the process. -/
structure Child where
  pid : Nat
  life : Life
  deriving DecidableEq, Repr

/-! ## Code units and loaders -/

/-- Who may use the symbols of an object: objects opened later, or none but
itself. -/
inductive Binding where
  | global
  | «local»
  deriving DecidableEq, Repr

def Binding.label : Binding → String
  | .global => "Global"
  | .local => "Local"

/-- An open object: what it was opened as, and the loader's number for it. -/
structure CodeUnit where
  origin : Path
  handle : Nat
  deriving DecidableEq, Repr, Inhabited

/-- A question to the loader. -/
inductive Call where
  | load (path : Path) (binding : Binding)
  | needed (path : Path)
  | isResident (name : String)
  | invoke (origin : Path) (symbol : String)
  deriving DecidableEq, Repr

/-- A question with the circumstances in which it was asked: the root and the
directory of the process, its identity, and the argument file made known. -/
structure Record where
  call : Call
  root : Location
  cwd : Location
  ids : Credentials
  arguments : Option Bytes

/-- What became of running an entry point: it came back, or it did not. -/
inductive Return where
  | back (result : Except UnitError Unit)
  | never (life : Life)

/-- A loader of code units with a state of its own, and what it remarks on a
question it could settle. -/
structure Loader (σ : Type) where
  load : Path → Binding → FileSystem → σ → Except UnitError Nat × σ
  needed : Path → FileSystem → σ → Except UnitError (List String) × σ
  isResident : String → FileSystem → σ → Bool × σ
  invoke : CodeUnit → String → Environment → FileSystem → σ → Return × FileSystem × σ
  close : CodeUnit → σ → σ
  remark : Call → Log := fun _ => []

/-! ## Sessions -/

/-- The state of a process. -/
structure Session (σ : Type) where
  fs : FileSystem
  loader : σ
  env : Environment := []
  ids : Credentials := ⟨.all 0, .all 0, []⟩
  kernel : Kernel := fun _ => none
  /-- The right to change the root, which a superuser has in any case. -/
  mayChangeRoot : Bool := false
  runId : String := ""
  nextPid : Nat := 2
  children : List Child := []
  opened : List CodeUnit := []
  journal : List Record := []
  log : Log := []
  stdout : String := ""
  stderr : String := ""
  deriving Inhabited

/-- Why an action stopped. -/
inductive Stop (ε : Type) where
  | failed (e : ε)
  | ended (life : Life)

/-- A step of a session that may stop. -/
abbrev Action (σ ε α : Type) := ExceptT (Stop ε) (StateM (Session σ)) α

namespace Action

variable {σ ε α : Type}

/-- The action stops with a failure. -/
def fail (e : ε) : Action σ ε α := throw (.failed e)

/-- A result that may be a failure. -/
def lift (result : Except ε α) : Action σ ε α :=
  match result with
  | .ok a => pure a
  | .error e => fail e

/-- The action with its failures wrapped. -/
def wrap (f : ε → ε') (a : Action σ ε α) : Action σ ε' α := fun s =>
  match a.run s with
  | (.ok a, s) => (.ok a, s)
  | (.error (.failed e), s) => (.error (.failed (f e)), s)
  | (.error (.ended life), s) => (.error (.ended life), s)

/-- Lines for the log. -/
def note (lines : Log) : Action σ ε Unit := modify fun s => { s with log := s.log ++ lines }

def debug (text : String) : Action σ ε Unit := note [⟨.debug, text⟩]
def info (text : String) : Action σ ε Unit := note [⟨.info, text⟩]
def warn (text : String) : Action σ ε Unit := note [⟨.warn, text⟩]
def error (text : String) : Action σ ε Unit := note [⟨.error, text⟩]

/-- The file system as it is now. -/
def files : Action σ ε FileSystem := do return (← get).fs

/-! ## Questions to the loader -/

/-- The variable by which the argument file is made known. -/
def argumentsVariable : String := "JAILCALL_ARGS"

/-- A question entered in the journal. -/
def record (call : Call) : Action σ ε Unit := modify fun s =>
  { s with journal := s.journal ++
      [⟨call, s.fs.root, s.fs.cwd, s.ids, s.env.get? argumentsVariable⟩] }

/-- An object opened. -/
def load (ld : Loader σ) (path : Path) (binding : Binding) : Action σ UnitError CodeUnit := do
  record (.load path binding)
  let s ← get
  let (result, loader) := ld.load path binding s.fs s.loader
  set { s with loader }
  match result with
  | .error e => fail e
  | .ok handle =>
    let unit : CodeUnit := ⟨path, handle⟩
    modify fun s => { s with opened := s.opened ++ [unit] }
    note (ld.remark (.load path binding))
    return unit

/-- What an object needs when it is opened, in link order. -/
def needed (ld : Loader σ) (path : Path) : Action σ UnitError (List String) := do
  record (.needed path)
  let s ← get
  let (result, loader) := ld.needed path s.fs s.loader
  set { s with loader }
  lift result

/-- Whether a library is mapped. -/
def isResident (ld : Loader σ) (name : String) : Action σ UnitError Bool := do
  record (.isResident name)
  let s ← get
  let (result, loader) := ld.isResident name s.fs s.loader
  set { s with loader }
  return result

/-- An entry point run. -/
def invoke (ld : Loader σ) (unit : CodeUnit) (symbol : String) : Action σ UnitError Unit := do
  record (.invoke unit.origin symbol)
  let s ← get
  let (result, fs, loader) := ld.invoke unit symbol s.env s.fs s.loader
  set { s with fs, loader }
  match result with
  | .back (.error e) => fail e
  | .back (.ok ()) => note (ld.remark (.invoke unit.origin symbol))
  | .never life =>
    note (ld.remark (.invoke unit.origin symbol))
    throw (.ended life)

/-- An object closed. -/
def close (ld : Loader σ) (unit : CodeUnit) : Action σ ε Unit := modify fun s =>
  { s with loader := ld.close unit s.loader, opened := s.opened.erase unit }

/-- The action, after which the objects it opened are closed again, the oldest
first, if `discards` says so of its result. -/
def closing (ld : Loader σ) (discards : Except (Stop ε) α → Bool) (a : Action σ ε α) :
    Action σ ε α := fun s =>
  let (result, after) := a.run s
  if discards result then
    let extra := after.opened.drop s.opened.length
    (result, { after with
      loader := extra.foldl (fun loader unit => ld.close unit loader) after.loader
      opened := after.opened.take s.opened.length })
  else (result, after)

/-- The action, after which the objects it opened are closed again. -/
def closingAll (ld : Loader σ) (a : Action σ ε α) : Action σ ε α := closing ld (fun _ => true) a

/-- The action, after which the objects it opened are closed again unless it
succeeded. -/
def closingOnFailure (ld : Loader σ) (a : Action σ ε α) : Action σ ε α := closing ld (!·.isOk) a

end Action

end Confinement
