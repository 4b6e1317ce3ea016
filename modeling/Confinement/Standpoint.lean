import Confinement.SearchList

/-!
# What the root decides

The search list, the working directory and the place of the staged libraries
mean different things before and after the root changes.  A `Standpoint` holds
the three for one root.  The one inside the jail is derived anew; of the
host's only the search entries are used, and they are evaluated again.
-/

namespace Confinement

/-- Where a search directory lives inside the jail once it is staged. -/
def stagedPath (staging : Path) (directory : Path) : Path := staging.reroot directory

/-- The directories among `candidates`, one for each list of components. -/
def distinctDirectories (fs : FileSystem) (candidates : List Path) : List Path :=
  candidates.foldl (fun kept p =>
    if fs.isDirectory p && !kept.any (decide <| p.Same ·) then kept ++ [p] else kept) []

/-- What the child may search: the host's entries, the target's directory, and
the staged copy of each distinct directory. -/
def candidates (entries : List Path) (moduleDirectory : Option Path) (distinct : List Path)
    (staging : Path) : List Path :=
  entries ++ moduleDirectory.toList ++ distinct.map (stagedPath staging)

/-- The search list of the child, under the root that `fs` has now. -/
def remap (fs : FileSystem) (entries : List Path) (moduleDirectory : Option Path)
    (distinct : List Path) (staging : Path) : List Path :=
  distinctDirectories fs (candidates entries moduleDirectory distinct staging)

/-- The values that depend on the root. -/
structure Standpoint where
  searchPaths : List Path
  cwd : Path
  stagingRoot : Path
  deriving Inhabited

namespace Standpoint

/-- Equal search lists, directories and staging roots, by components. -/
def Same (s t : Standpoint) : Prop :=
  s.searchPaths.map Path.components = t.searchPaths.map Path.components ∧
    s.cwd.Same t.cwd ∧ s.stagingRoot.Same t.stagingRoot

instance (s t : Standpoint) : Decidable (s.Same t) := inferInstanceAs (Decidable (_ ∧ _ ∧ _))

/-- The values before the root changes. -/
def host (fs : FileSystem) (entries : List Path) (jailRoot staging : Path) : Standpoint :=
  ⟨entries, fs.currentDirectory, jailRoot.reroot staging⟩

/-- The values after it.  A relative directory of the target is taken from the
jail's working directory. -/
def insideJail (s : Standpoint) (fs : FileSystem) (moduleDirectory : Option Path)
    (distinct : List Path) (staging : Path) : Standpoint :=
  let cwd := fs.currentDirectory
  ⟨remap fs s.searchPaths (moduleDirectory.map cwd.join) distinct staging, cwd, staging⟩

end Standpoint

end Confinement
