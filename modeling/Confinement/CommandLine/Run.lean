import Confinement.Caller
import Confinement.CommandLine.Options

/-!
# Running a command line

A run loads the configuration, takes the call through its states and, unless
only the catalog was asked for, launches it.  Its exit status is 1 for a list
and for a failure, the child's if the run waits for it, and else 0.
-/

namespace Confinement.CommandLine

variable {σ : Type}

/-- The catalog as it is printed. -/
def renderCatalog (catalog : Catalog) (json : Bool) : String :=
  if json then catalog.renderJson else catalog.render

/-- A text printed. -/
def print (text : String) : Action σ Failure Unit :=
  modify fun s => { s with stdout := s.stdout ++ text }

/-- One run, and its exit status. -/
def execute (ld : Loader σ) (o : Options) (cmd : Path) : Action σ Failure Int32 := do
  let (loaded, log) := Configuration.load (← Action.files) o.config
  Action.note log
  let config ← Action.lift (loaded.mapError fun p => .configuration p.message)
  let prepared ← Action.prepare (o.invocation cmd) config
  let configured ← Action.configure prepared
  let preloaded ← Action.preloadCall ld configured
  let discovered ← Action.discover preloaded
  if discovered.invocation.listOnly then
    print (renderCatalog discovered.catalog o.json)
    return 1
  else
    let handle ← Action.launch ld (← Action.stage discovered)
    if o.wait || config.wait then
      let outcome ← handle.wait
      Action.info ("Child finished: " ++ outcome.describe)
      return outcome.exitStatus
    else return 0

/-! ## The program -/

/-- How the program is called. -/
def usage : String := "Usage: jailcall [OPTIONS]"

/-- The program's name and version. -/
def versionText : String := "jailcall 0.1.0\n"

/-- What the program prints when asked for help. -/
def helpText : String :=
  "Run a shared-object entry point inside a chroot jail with preloaded native libraries\n\n" ++
  usage ++ "\n\nOptions:\n" ++
  "  -r, --root <ROOT>        Jail root directory [default: /]\n" ++
  "  -c, --cmd <CMD>          Shared object to run inside the jail\n" ++
  "  -f, --func <FUNC>        Entry point to call [default: main]\n" ++
  "  -m, --modules <MODULES>  File listing extra native extensions to preload, one per line\n" ++
  "  -l, --list-modules       Print the native extensions found on the search paths and exit\n" ++
  "  -j, --args <ARGS>        File made visible to the entry point through JAILCALL_ARGS\n" ++
  "  -w, --wait               Wait for the child and exit with its status\n" ++
  "      --json               Print the module list as a JSON array\n" ++
  "      --config <CONFIG>    JSON configuration file\n" ++
  "  -h, --help               Print help\n" ++
  "  -V, --version            Print version\n"

/-- What the program says about a command line it refuses. -/
def refusalText : Refusal → String
  | .unknownArgument => "unexpected argument found"
  | .invalidValue => "invalid value for an option"
  | .argumentConflict => "an option cannot be used multiple times"
  | .tooManyValues => "unexpected value for an option"
  | .invalidUtf8 => "invalid UTF-8 was detected in one or more arguments"
  | .displayHelp => helpText
  | .displayVersion => versionText

/-- Text printed to the session's standard output or error. -/
private def written (s : Session σ) (out err : String) : Session σ :=
  { s with stdout := s.stdout ++ out, stderr := s.stderr ++ err }

/-- How the program ends on a command line, and the session it leaves. -/
def run (ld : Loader σ) (words : List Bytes) (s : Session σ) : Life × Session σ :=
  let exit (status : Int32) : Life := .ended (.exited status)
  match parse words with
  | .error .displayHelp => (exit 0, written s helpText "")
  | .error .displayVersion => (exit 0, written s versionText "")
  | .error refusal =>
    (exit 2, written s "" ("error: " ++ refusalText refusal ++ "\n\n" ++ usage ++
      "\n\nFor more information, try '--help'.\n"))
  | .ok o =>
    match o.cmd with
    | none => (exit 1, written s "" (usage ++ "\n"))
    | some cmd =>
      match (execute ld o cmd).run s with
      | (.ok status, s) => (exit status, s)
      | (.error (.failed e), s) =>
          (exit e.exitStatus, written s "" ("Error: " ++ e.message ++ "\n"))
      | (.error (.ended life), s) => (life, s)

end Confinement.CommandLine
