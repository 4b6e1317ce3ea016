import Confinement.Child
import Confinement.Jail
import Confinement.Preload
import Confinement.Staging

/-!
# One jailed call

A call goes through fixed states.  Each state holds what the one before it
held and what its own step found, so a later state cannot be reached, or
built, without the earlier ones:

* `Prepared`: invocation, configuration and search entries;
* `Configured`: the set of extensions is final;
* `Preloaded`: extensions are open, and the target's name is free;
* `Discovered`: the distinct search directories and the catalog are known;
* `Staged`: the libraries lie under the validated root of the jail.

A staged call can be launched: a child runs the target, and the caller goes on
with a handle to it.
-/

namespace Confinement

/-- A call before its first step. -/
structure Prepared where
  invocation : Invocation
  config : Configuration
  entries : List Path
  deriving Inhabited

/-- A call with its final set of extensions. -/
structure Configured extends Prepared where
  extensions : ExtensionSet
  deriving Inhabited

/-- A call with its extensions open and its target's name free. -/
structure Preloaded extends Configured where
  residents : List Resident
  registry : Registry
  module : String
  deriving Inhabited

/-- A call with its search directories and its catalog. -/
structure Discovered extends Preloaded where
  searchPaths : List Path
  catalog : Catalog
  deriving Inhabited

/-- A call whose libraries are staged. -/
structure Staged extends Discovered where
  jailRoot : Path
  report : StagingReport
  deriving Inhabited

/-- The table of memory mappings of the process. -/
def mappingsFile : Path := Path.ofString "/proc/self/maps"

/-- A registry with the objects mapped in the process, and the remark made if
they cannot be read. -/
def Registry.ofHost (fs : FileSystem) : Registry × Log :=
  match fs.readText mappingsFile with
  | .ok table => (Registry.registerMappings {} table, [])
  | .error e => ({}, [⟨.debug, "Cannot read " ++ mappingsFile.display ++ ": " ++ e.message⟩])

/-- The names of the resident extensions, in the order in which they were
opened. -/
def Preloaded.residentNames (c : Preloaded) : List String := c.residents.map (·.name)

namespace Action

variable {σ : Type}

/-- A log line that bears the id of the run. -/
def noteRun (level : Level) (text : String) : Action σ Failure Unit := do
  note [⟨level, "[" ++ (← get).runId ++ "] " ++ text⟩]

/-- The search entries collected. -/
def prepare (invocation : Invocation) (config : Configuration) : Action σ Failure Prepared := do
  let s ← get
  let entries := SearchList.collect s.fs s.env config
  note (SearchList.remarks s.fs config)
  noteRun .debug (toString entries.length ++ " search entries for " ++ invocation.cmd.display)
  return ⟨invocation, config, entries⟩

/-- The extensions listed by the caller joined to the baseline. -/
def configure (c : Prepared) : Action σ Failure Configured := do
  match c.invocation.listFile with
  | none => return { c with extensions := .baseline }
  | some list =>
    let (merged, log) := ExtensionSet.mergeFile (← files) .baseline list
    note log
    let extensions ← lift (merged.mapError fun u => .configuration u.message)
    noteRun .info ("Extension set has " ++ toString extensions.size ++ " names after merging " ++
      list.display)
    return { c with extensions }

/-- The extensions opened and the target's name checked. -/
def preloadCall (ld : Loader σ) (c : Configured) : Action σ Failure Preloaded :=
    closingOnFailure ld do
  let residents ←
    preload ld c.entries c.config.extensionSuffix c.config.preloadPolicy c.extensions
  let (host, log) := Registry.ofHost (← files)
  note log
  let registry := host.registerResidents residents
  let module ← lift (c.invocation.moduleName.mapError fun n => .configuration n.message)
  match registry.originOf? module with
  | some origin =>
    noteRun .error ("Target " ++ module ++ " clashes with " ++ origin.display)
    fail (.nameClash module origin.display)
  | none => return { c with residents, registry, module }

/-- The distinct search directories selected and their extensions named. -/
def discover (c : Preloaded) : Action σ Failure Discovered := do
  let fs ← files
  let searchPaths := SearchList.select fs c.entries fs.currentDirectory
  let catalog := Catalog.build fs searchPaths c.config.extensionSuffix
  note (Catalog.remarks fs searchPaths c.config.extensionSuffix)
  noteRun .info (toString searchPaths.length ++ " distinct search paths, " ++
    toString catalog.size ++ " extensions indexed")
  return { c with searchPaths, catalog }

/-- The search directories copied under the jail's root. -/
def stage (c : Discovered) : Action σ Failure Staged := do
  let jailRoot ← lift ((validateRoot (← files) c.invocation.root).mapError fun p =>
    .configuration p.message)
  let s ← get
  let (result, scene) := Stage.run ⟨jailRoot, c.config.stagingPrefix⟩ s.fs c.searchPaths
  set { s with fs := scene.fs, log := s.log ++ scene.log }
  let report ← lift result
  noteRun .debug report.describe
  return { c with jailRoot, report }

/-- What the child of a staged call needs. -/
def Staged.plan (c : Staged) (fs : FileSystem) : JailPlan where
  jailRoot := c.jailRoot
  module := c.module
  moduleDirectory := c.invocation.moduleDirectory?
  entryPoint := c.invocation.entryPoint
  arguments := c.invocation.arguments
  hostStandpoint := .host fs c.entries c.jailRoot c.config.stagingPrefix
  distinct := c.searchPaths
  staging := c.config.stagingPrefix
  suffix := c.config.extensionSuffix

/-- The child started.  It runs on a copy of the session; what it does to
files and what it prints is seen by all; its log is its own. -/
def launch (ld : Loader σ) (c : Staged) : Action σ Failure ChildHandle := do
  let s ← get
  let plan := Staged.plan c s.fs
  match s.kernel .fork with
  | some e => fail (.child ("fork failed: " ++ e.symbol))
  | none =>
    let (life, child) := childLife ld plan s
    -- Root, directory and rights are a process's own, so the caller keeps its own.
    set { s with
      fs := { child.fs with root := s.fs.root, cwd := s.fs.cwd, superuser := s.fs.superuser }
      stdout := child.stdout
      stderr := child.stderr }
    let handle ← startChild life
    noteRun .info ("Launched " ++ plan.module ++ "." ++ plan.entryPoint ++ " in " ++
      plan.jailRoot.display ++ " as pid " ++ toString handle.pid)
    return handle

end Action

end Confinement
