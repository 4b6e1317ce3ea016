import Confinement.Configuration
import Confinement.LinkerConf

/-!
# Search lists

The search entries of a run are the directories its loader consults, in that
order: those of two environment variables, those of the linker configuration,
four defaults, and what the configuration adds.  A configured list replaces
all but the last.

`select` keeps the entries worth staging: directories, not inside the current
one, and not inside a directory that is kept already.  Shorter entries are
considered first.
-/

namespace Confinement

/-- Environment variables by name. -/
abbrev Environment := List (String × Bytes)

/-- The value of a variable. -/
def Environment.get? (env : Environment) (name : String) : Option Bytes := env.lookup name

/-- The environment with a variable set. -/
def Environment.set (env : Environment) (name : String) (value : Bytes) : Environment :=
  (name, value) :: env.filter (·.1 ≠ name)

namespace SearchList

/-- The variables that hold search directories, in order of precedence. -/
def searchVariables : List String := ["JAILCALL_LIBRARY_PATH", "LD_LIBRARY_PATH"]

/-- The directories in the value of a variable.  An empty stretch counts. -/
def splitVariable (value : Bytes) : List Path := (value.splitOn 0x3A).map Path.mk

/-- The linker's configuration file. -/
def linkerConf : Path := Path.ofString "/etc/ld.so.conf"

/-- The directories every loader consults. -/
def defaults : List Path := ["/lib64", "/usr/lib64", "/lib", "/usr/lib"].map Path.ofString

/-- The search entries found on the host. -/
def discovered (fs : FileSystem) (env : Environment) : List Path :=
  (searchVariables.filterMap env.get?).flatMap splitVariable ++
    LinkerConf.directories fs linkerConf ++ defaults

/-- The search entries of a run, in order. -/
def collect (fs : FileSystem) (env : Environment) (config : Configuration) : List Path :=
  config.searchPaths.getD (discovered fs env) ++ config.extraSearchPaths

/-- The remarks made while search entries are collected. -/
def remarks (fs : FileSystem) (config : Configuration) : Log :=
  if config.searchPaths.isSome then [] else LinkerConf.remarks fs linkerConf

/-! ## Selection -/

/-- Whether a directory keeps the entries inside it from being staged.  The
root does not, as everything is inside it. -/
def excludes (cwd : Path) : Bool := !decide (cwd.Same .root) && !cwd.isEmpty

/-- Whether an entry may be staged at all. -/
def isEligible (fs : FileSystem) (cwd entry : Path) : Bool :=
  !entry.isEmpty && !(excludes cwd && entry.isBelow cwd) && fs.isDirectory entry

/-- One more entry considered after those kept. -/
def consider (fs : FileSystem) (cwd : Path) (kept : List Path) (entry : Path) : List Path :=
  if isEligible fs cwd entry && !kept.any entry.isBelow then kept ++ [entry] else kept

/-- Entries by their length; entries of one length keep their places. -/
def byLength (entries : List Path) : List Path :=
  entries.mergeSort fun p q => p.length ≤ q.length

/-- The distinct directories among the entries. -/
def select (fs : FileSystem) (entries : List Path) (cwd : Path) : List Path :=
  (byLength entries).foldl (consider fs cwd) []

end SearchList

end Confinement
