import Confinement.Catalog
import Confinement.Failure
import Confinement.FileSystem.Write
import Confinement.Text.Quoted

/-!
# Staging search directories

The distinct search directories are copied under the jail's root, below the
staging prefix, each at its own path: directories and files keep their modes,
links their targets as written, and other nodes are left out.  A copy is made
while the tree is walked, so a directory's entries are those it has when the
walk descends into it.

Staging happens once.  If the staging root is a directory nothing is copied;
if a copy fails, what was made so far stays.
-/

namespace Confinement

/-- What a staging pass made. -/
structure Tally where
  directories : Nat := 0
  files : Nat := 0
  links : Nat := 0
  deriving DecidableEq, Repr, Inhabited

/-- What became of staging. -/
structure StagingReport where
  stagingRoot : Path
  skipped : Bool
  tally : Tally
  deriving DecidableEq, Repr, Inhabited

/-- A report as the log shows it. -/
def StagingReport.describe (r : StagingReport) : String :=
  "CloneReport \x7b staging_root: " ++ Text.quotePath r.stagingRoot ++ ", skipped: " ++
    toString r.skipped ++ ", dirs: " ++ toString r.tally.directories ++ ", files: " ++
    toString r.tally.files ++ ", symlinks: " ++ toString r.tally.links ++ " \x7d"

/-- Where a jail keeps its copies. -/
structure Stage where
  jailRoot : Path
  staging : Path
  deriving Inhabited

namespace Stage

/-- The staging root, seen from the host. -/
def root (s : Stage) : Path := s.jailRoot.reroot s.staging

/-- Where a directory is staged, seen from the host. -/
def location (s : Stage) (directory : Path) : Path := s.root.reroot directory

/-- The files and the log that staging works on. -/
structure Scene where
  fs : FileSystem
  log : Log := []

/-- A step of staging. -/
abbrev Work := ExceptT Failure (StateM Scene)

def note (level : Level) (text : String) : Work Unit :=
  modify fun s => { s with log := s.log ++ [⟨level, text⟩] }

/-- A change of the files, whose failure is reported for a path. -/
def change (path : Path) (f : FileSystem → Except IoError Unit × FileSystem) :
    Work Unit := do
  let s ← get
  let (result, fs) := f s.fs
  set { s with fs }
  match result with
  | .ok () => return ()
  | .error e => throw (.staging path e.message)

/-- An elementary change: it happens or leaves the files alone. -/
def whole (f : FileSystem → Except IoError FileSystem) (fs : FileSystem) :
    Except IoError Unit × FileSystem :=
  match f fs with
  | .ok changed => (.ok (), changed)
  | .error e => (.error e, fs)

/-! ## Copying -/

/-- A directory made where it is missing, with the mode of its source. -/
def copyDirectory (source copy : Path) : Work Unit := do
  change copy (·.makeDirectories copy)
  match (← get).fs.lstat source with
  | .error e => throw (.staging source (walkFailure source e))
  | .ok node => change copy (whole (·.setMode copy node.mode))

/-- A link made with the target of its source. -/
def copyLink (source copy : Path) : Work Unit := do
  match (← get).fs.readLink source with
  | .error e => throw (.staging source e.message)
  | .ok target => change copy (whole (·.makeLink target copy))

/-- One entry copied. -/
def copyEntry (source copy : Path) (node : Node) (t : Tally) : Work Tally := do
  match node with
  | .directory .. =>
    copyDirectory source copy
    return { t with directories := t.directories + 1 }
  | .link _ =>
    copyLink source copy
    return { t with links := t.links + 1 }
  | .file .. =>
    change source (·.copyFile source copy)
    return { t with files := t.files + 1 }
  | .pipe _ =>
    note .debug ("Skipping special file " ++ source.display)
    return t

/-- The contents of a directory copied.  Paths grow with every step down and
are refused beyond their limit, which bounds the depth. -/
def copyBelow (root : Path) : (depth : Nat) → (source copy : Path) → Tally → Work Tally
  | 0, _, _, t => return t
  | depth + 1, source, copy, t => do
    match (← get).fs.list source with
    | .error e => throw (.staging root (walkFailure source e))
    | .ok entries =>
      entries.foldlM (fun t (name, node) => do
        let t ← copyEntry (source.child name) (copy.child name) node t
        if node.isDirectory then copyBelow root depth (source.child name) (copy.child name) t
        else return t) t

/-- Whether a walk from `source` descends: into a directory, also one behind a
link. -/
def descends (fs : FileSystem) (source : Path) (node : Node) : Except IoError Bool :=
  match node with
  | .link _ => (fs.stat source).map (·.isDirectory)
  | node => .ok node.isDirectory

/-- A tree copied. -/
def copyTree (source target : Path) (t : Tally) : Work Tally := do
  let copy := target.join ⟨[]⟩
  let fs := (← get).fs
  match fs.lstat source with
  | .error e => throw (.staging source (walkFailure source e))
  | .ok node =>
    match descends fs source node with
    | .error e => throw (.staging source (walkFailure source e))
    | .ok deeper =>
      -- A link is copied as a link also when the walk goes on behind it.
      let t ← copyEntry source copy node t
      if deeper then copyBelow source FileSystem.pathLimit source copy t else return t

/-- One search directory staged. -/
def copyDirectoryTree (s : Stage) (t : Tally) (source : Path) : Work Tally := do
  let target := s.location source
  note .debug ("Copying " ++ source.display ++ " to " ++ target.display)
  tryCatch (copyTree source target t) fun e => do
    note .error ("Library staging aborted, partial tree left at " ++ s.root.display)
    throw e

/-- The search directories staged, unless the staging root is there. -/
def copyAll (s : Stage) (directories : List Path) : Work StagingReport := do
  if (← get).fs.isDirectory s.root then
    note .info ("Staging root " ++ s.root.display ++ " exists, skipping library copy")
    return ⟨s.root, true, {}⟩
  else
    let t ← directories.foldlM s.copyDirectoryTree {}
    note .info ("Staged " ++ toString directories.length ++ " search paths under " ++
      s.root.display ++ " (" ++ toString t.directories ++ " dirs, " ++ toString t.files ++
      " files, " ++ toString t.links ++ " symlinks)")
    return ⟨s.root, false, t⟩

/-- A staging pass over a file system: its result, the file system it leaves,
and its log. -/
def run (s : Stage) (fs : FileSystem) (directories : List Path) :
    Except Failure StagingReport × Scene :=
  (s.copyAll directories).run ⟨fs, []⟩

end Stage

end Confinement
