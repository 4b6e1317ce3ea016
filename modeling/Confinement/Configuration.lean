import Confinement.FileSystem.Read
import Confinement.Json.Value
import Confinement.Log

/-!
# Configuration

A configuration has six settings, each with a default.  A configuration file
is a JSON object with any of them; unknown members are passed over and a
repeated one is refused.  The file may also be a list of the settings in their
order, cut short anywhere.

Three conditions are checked after reading: the staging prefix is absolute, it
is not `/` however that is spelled, and the extension suffix is not empty.
-/

namespace Confinement

/-- What to do about an extension that cannot be preloaded: stop at once, or
try all and then stop. -/
inductive PreloadPolicy where
  | failFast
  | collectAll
  deriving DecidableEq, Repr

/-- The settings of a run. -/
structure Configuration where
  /-- Where, inside the jail, search directories are staged. -/
  stagingPrefix : Path := Path.ofString "/tmp/.jailcall/stage"
  /-- The end of the file name of every extension. -/
  extensionSuffix : String := ".so"
  /-- Replaces the search directories found on the host. -/
  searchPaths : Option (List Path) := none
  /-- Search directories after all others. -/
  extraSearchPaths : List Path := []
  preloadPolicy : PreloadPolicy := .failFast
  /-- Whether to wait for the child. -/
  wait : Bool := false
  deriving Inhabited

/-- The names of the two policies. -/
def PreloadPolicy.label : PreloadPolicy → String
  | .failFast => "fail_fast"
  | .collectAll => "collect_all"

namespace Configuration

open Json

/-! ## Reading -/

/-- The settings found so far. -/
structure Draft where
  stagingPrefix : Option Path := none
  extensionSuffix : Option String := none
  searchPaths : Option (Option (List Path)) := none
  extraSearchPaths : Option (List Path) := none
  preloadPolicy : Option PreloadPolicy := none
  wait : Option Bool := none

/-- The settings found, defaults for the others. -/
def Draft.complete (d : Draft) : Configuration :=
  let default : Configuration := {}
  { stagingPrefix := d.stagingPrefix.getD default.stagingPrefix
    extensionSuffix := d.extensionSuffix.getD default.extensionSuffix
    searchPaths := d.searchPaths.getD default.searchPaths
    extraSearchPaths := d.extraSearchPaths.getD default.extraSearchPaths
    preloadPolicy := d.preloadPolicy.getD default.preloadPolicy
    wait := d.wait.getD default.wait }

/-- A path. -/
private def path : Reader Path := do return Path.ofString (← string "path string")

/-- The policy a name stands for. -/
private def policyNamed : Reader PreloadPolicy := placed do
  let name ← string "variant identifier"
  match [PreloadPolicy.failFast, .collectAll].find? (·.label = name) with
  | some policy => return policy
  | none => failUnplaced (.unknownVariant name (["fail_fast", "collect_all"]))

/-- A policy: its name, or an object that maps its name to `null`. -/
private def policy : Reader PreloadPolicy := do
  match ← peekToken .endInValue with
  | 0x7B =>
    pass 1
    let named ← policyNamed
    colon
    unit
    match ← peekToken? with
    | some 0x7D => pass 1; return named
    | some _ => fail .wantsValue
    | none => fail .endInObject
  | 0x22 => policyNamed
  | _ => failAhead .wantsValue

/-- A setting by name: how to tell that it was found, and how to read it. -/
structure Setting where
  name : String
  isSet : Draft → Bool
  read : Draft → Reader Draft

/-- The settings in the order of a configuration written as a list. -/
def settings : List Setting := [
  ⟨"staging_prefix", (·.stagingPrefix.isSome), fun d => do
    return { d with stagingPrefix := some (← path) }⟩,
  ⟨"extension_suffix", (·.extensionSuffix.isSome), fun d => do
    return { d with extensionSuffix := some (← string "a string") }⟩,
  ⟨"search_paths", (·.searchPaths.isSome), fun d => do
    return { d with searchPaths := some (← nullOr (list path)) }⟩,
  ⟨"extra_search_paths", (·.extraSearchPaths.isSome), fun d => do
    return { d with extraSearchPaths := some (← list path) }⟩,
  ⟨"preload_policy", (·.preloadPolicy.isSome), fun d => do
    return { d with preloadPolicy := some (← policy) }⟩,
  ⟨"wait", (·.wait.isSome), fun d => do
    return { d with wait := some (← boolean) }⟩]

/-- The members of an object up to its closing bracket. -/
private def members : (bound : Nat) → (first : Bool) → Draft → Reader Draft
  | 0, _, d => return d
  | bound + 1, first, d => do
    if ← moreMembers first then
      pass 1
      let key ← text
      match settings.find? (·.name = key) with
      | some setting =>
        if setting.isSet d then failUnplaced (.repeatedField key)
        else
          colon
          members bound false (← setting.read d)
      | none =>
        colon
        skipValue
        members bound false d
    else return d

/-- The settings of a list, in order, as far as it goes. -/
private def inOrder : List Setting → (first : Bool) → Draft → Reader Draft
  | [], _, d => return d
  | setting :: rest, first, d => do
    if ← moreElements first then inOrder rest false (← setting.read d) else return d

/-- A configuration. -/
private def draft : Reader Draft := placed do
  match ← peekToken .endInValue with
  | 0x5B =>
    pass 1
    followedBy (inOrder settings true {}) endList
  | 0x7B =>
    pass 1
    followedBy (do members ((← get).rest.length + 1) true {}) endObject
  | _ => refuse "struct CallerConfig"

/-- The configuration a text spells. -/
def parse (source : Bytes) : Except Fault Configuration :=
  (Reader.at (do let d ← draft; endOfText; return d.complete) (Cursor.start source)).1

/-! ## Loading -/

/-- Why a configuration is refused. -/
inductive Problem where
  | unreadable (path : Path) (e : IoError)
  | malformed (f : Fault)
  | relativePrefix (path : Path)
  | prefixIsRoot
  | emptySuffix

/-- A problem in words. -/
def Problem.message : Problem → String
  | .unreadable path e => "Failed to read config file " ++ path.display ++ ": " ++ e.message
  | .malformed f => "Failed to parse config JSON: " ++ f.message
  | .relativePrefix path => "staging_prefix must be absolute, got " ++ path.display
  | .prefixIsRoot => "staging_prefix must not be the jail root itself"
  | .emptySuffix => "extension_suffix must not be empty"

/-- The configuration, if it meets the three conditions. -/
def validate (c : Configuration) : Except Problem Configuration :=
  if !c.stagingPrefix.isAbsolute then .error (.relativePrefix c.stagingPrefix)
  else if c.stagingPrefix.Same .root then .error .prefixIsRoot
  else if c.extensionSuffix.isEmpty then .error .emptySuffix
  else .ok c

/-- The configuration in a file. -/
def loadFile (fs : FileSystem) (path : Path) : Except Problem Configuration := do
  let source ← (fs.readText path).mapError (.unreadable path)
  let c ← (parse (Utf8.encode source)).mapError .malformed
  c.validate

/-- The configuration consulted when no file is named. -/
def systemPath : Path := Path.ofString "/etc/jailcall/config.json"

/-- The configuration in the named file, else in the system's file if there is
one, else the defaults. -/
def load (fs : FileSystem) : (named : Option Path) → Except Problem Configuration × Log
  | some path => (loadFile fs path, [])
  | none =>
    if fs.isFile systemPath then
      (loadFile fs systemPath,
        [⟨.debug, "Loading system configuration from " ++ systemPath.display⟩])
    else (.ok {}, [])

end Configuration

end Confinement
