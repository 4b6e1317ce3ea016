import Confinement.Configuration
import Confinement.Jail
import Confinement.Proofs.FileSystem.Plain
import Confinement.Proofs.Staging.Lookup

/-!
# The staging root of host and child

The host puts the names of the staging prefix below the jail's root.  The child
walks the prefix as it is written, with the jail for its root.  In a tree
without links they mean one directory strictly inside the jail for every prefix
without `..` that a configuration may have, and for those with `..` exactly when
these come first and a name follows (`stagedInside_iff`).

A prefix such as `/..` is accepted and means the root of the jail itself.
-/

namespace Confinement

open FileSystem

/-- Two standpoints have one place for the staged libraries: the first names it
on the host, the second with the directory `r` for its root, and it lies
strictly below `r`. -/
structure StagedInside (fs : FileSystem) (r : Location) (host child : Standpoint) : Prop where
  same : (fs.confined r).placeOf child.stagingRoot = fs.placeOf host.stagingRoot
  inside : r <+: fs.placeOf host.stagingRoot
  ne_root : fs.placeOf host.stagingRoot ≠ r

variable {fs : FileSystem} {c : Configuration} {root jail : Path} {r : Location}

theorem Configuration.validate_eq_ok_iff : c.validate = .ok c ↔
    c.stagingPrefix.isAbsolute ∧ ¬ c.stagingPrefix.Same .root ∧
      c.extensionSuffix.isEmpty = false := by
  unfold validate
  split
  · simp_all
  · split
    · simp_all
    · split <;> simp_all

/-- A prefix that is accepted and takes no `..` has a name. -/
theorem Configuration.names_ne_nil (hvalid : c.validate = .ok c)
    (hplain : Path.dotdot ∉ c.stagingPrefix.turns) : c.stagingPrefix.names ≠ [] := by
  intro hnil
  obtain ⟨habs, hroot, -⟩ := validate_eq_ok_iff.mp hvalid
  have hturns : c.stagingPrefix.turns = [] := by
    rw [← hnil, Path.names_eq]
    exact filter_ne_dotdot_eq_self_iff.mpr hplain
  apply hroot
  have hcomponents : c.stagingPrefix.components = [.root] := by
    rw [Path.components_eq, hturns, Path.origin, if_pos habs]
    rfl
  exact hcomponents

theorem validateRoot_eq_ok_iff :
    validateRoot fs root = .ok jail ↔ fs.canonical root = .ok jail ∧ fs.isDirectory jail := by
  unfold validateRoot
  cases fs.canonical root with
  | error e => simp
  | ok path =>
      by_cases hdir : fs.isDirectory path
      · simp only [hdir, if_true, Except.ok.injEq]
        exact ⟨fun heq => ⟨heq, heq ▸ hdir⟩, And.left⟩
      · simp only [hdir, Bool.false_eq_true, if_false, Except.ok.injEq]
        exact ⟨nofun, fun ⟨heq, hjail⟩ => absurd (heq ▸ hjail) hdir⟩

theorem exists_locate_of_validateRoot (hroot : validateRoot fs root = .ok jail) :
    ∃ r, fs.locate jail = .ok r := by
  obtain ⟨r, mode, es, hfind⟩ := isDirectory_iff.mp (validateRoot_eq_ok_iff.mp hroot).2
  exact ⟨r, locate_eq_ok_iff.mpr ⟨_, hfind⟩⟩

/-- Paths without `..` climb nowhere. -/
theorem Path.climbsFirst_of_notMem {p : Path} (h : Path.dotdot ∉ p.turns) : p.ClimbsFirst := by
  have hturns := filter_ne_dotdot_eq_self_iff.mpr h
  rw [← Path.names_eq] at hturns
  have hstays : p.turns.dropWhile (· = Path.dotdot) = p.turns := by
    -- Where no name is `..` the leading ones that are make an empty stretch.
    cases hcons : p.turns with
    | nil => rfl
    | cons turn turns =>
        have hne : turn ≠ Path.dotdot := by
          rintro rfl
          rw [hcons] at h
          exact h List.mem_cons_self
        exact List.dropWhile_cons_of_neg (by simpa using hne)
  exact hstays.trans hturns

/-- The host and the child mean one directory strictly inside the jail if and
only if the prefix has a name and takes no `..` after it; so it is for every
accepted prefix without `..`.  Whatever is found under the two staging roots is
at the places that they spell. -/
theorem stagedInside_iff (hplain : fs.Plain) (hvalid : c.validate = .ok c)
    (hroot : validateRoot fs root = .ok jail) (entries : List Path) (moduleDirectory : Option Path)
    (distinct : List Path) :
    ∃ r, fs.locate jail = .ok r ∧
      let host := Standpoint.host fs entries jail c.stagingPrefix
      let child := host.insideJail (fs.confined r) moduleDirectory distinct c.stagingPrefix
      host.stagingRoot = Stage.root ⟨jail, c.stagingPrefix⟩ ∧
      (StagedInside fs r host child ↔
        c.stagingPrefix.ClimbsFirst ∧ c.stagingPrefix.names ≠ []) ∧
      (Path.dotdot ∉ c.stagingPrefix.turns → StagedInside fs r host child) ∧
      (∀ l, fs.locate host.stagingRoot = .ok l → l = fs.placeOf host.stagingRoot) ∧
      ∀ l, (fs.confined r).locate child.stagingRoot = .ok l →
        l = (fs.confined r).placeOf child.stagingRoot := by
  obtain ⟨r, hr⟩ := exists_locate_of_validateRoot hroot
  refine ⟨r, hr, ?_⟩
  intro host child
  have hhost : fs.placeOf host.stagingRoot = r ++ c.stagingPrefix.names := by
    rw [eq_placeOf_of_locate hplain hr]
    exact placeOf_reroot fs jail c.stagingPrefix
  have hchild : (fs.confined r).placeOf child.stagingRoot = r ++ c.stagingPrefix.names ↔
      c.stagingPrefix.ClimbsFirst := placeOf_eq_iff (start_confined c.stagingPrefix)
  -- The host is always inside where it should be, so the child decides whether the two agree.
  have hiff : StagedInside fs r host child ↔
      c.stagingPrefix.ClimbsFirst ∧ c.stagingPrefix.names ≠ [] := by
    constructor
    · rintro ⟨hsame, -, hne⟩
      rw [hhost] at hsame hne
      exact ⟨hchild.mp hsame, fun hnil => hne (by rw [hnil, List.append_nil])⟩
    · rintro ⟨hclimbs, hnames⟩
      refine ⟨(hchild.mpr hclimbs).trans hhost.symm, ?_, ?_⟩
      · rw [hhost]
        exact List.prefix_append r _
      · rw [hhost]
        simpa using hnames
  refine ⟨rfl, hiff, fun hdotdot => ?_, fun l => eq_placeOf_of_locate hplain, fun l => ?_⟩
  · exact hiff.mpr ⟨Path.climbsFirst_of_notMem hdotdot, c.names_ne_nil hvalid hdotdot⟩
  · have hconfined : (fs.confined r).Plain := hplain
    exact eq_placeOf_of_locate hconfined

/-- Files of a host without links, with a jail in which some directories are. -/
def plainHost : FileSystem where
  tree := .directory 0o755 [
    (Utf8.encode "jail", .directory 0o755 [
      (Utf8.encode "stage", .directory 0o755 []),
      (Utf8.encode "up", .directory 0o755 [(Utf8.encode "stage", .directory 0o755 [])])])]

theorem plain_plainHost : plainHost.Plain := by
  have hfaces : ∀ e ∈ plainHost.tree.faces, ∃ mode, e.2 = .directory mode := by
    simp [plainHost, Node.faces, Node.entryFaces]
  refine plain_of_faces fun e he target hlink => ?_
  obtain ⟨mode, hmode⟩ := hfaces e he
  rw [hlink] at hmode
  cases hmode

theorem validateRoot_plainHost : validateRoot plainHost "/jail" = .ok "/jail" :=
  validateRoot_eq_ok_iff.mpr (by decide +kernel)

/-- The default prefix means one directory for both. -/
theorem stagedInside_default :
    let c : Configuration := {}
    c.validate = .ok c ∧ validateRoot plainHost "/jail" = .ok "/jail" ∧
      ∃ r, plainHost.locate "/jail" = .ok r ∧
        let host := Standpoint.host plainHost [] "/jail" c.stagingPrefix
        StagedInside plainHost r host
          (host.insideJail (plainHost.confined r) none [] c.stagingPrefix) := by
  intro c
  have hvalid : c.validate = .ok c := Configuration.validate_eq_ok_iff.mpr (by decide +kernel)
  have hroot := validateRoot_plainHost
  obtain ⟨r, hr, -, -, hinside, -⟩ := stagedInside_iff plain_plainHost hvalid hroot [] none []
  exact ⟨hvalid, hroot, r, hr, hinside (by decide +kernel)⟩

/-- With `/up/../stage` the host means a directory that the child does not, and
with `/..` it means the root of the jail.  Both are accepted. -/
theorem stagingRoot_of_dotdot :
    let jail := Utf8.encode "jail"
    let up : Configuration := { stagingPrefix := "/up/../stage" }
    let top : Configuration := { stagingPrefix := "/.." }
    plainHost.Plain ∧ validateRoot plainHost "/jail" = .ok "/jail" ∧
      plainHost.locate "/jail" = .ok [jail] ∧ up.validate = .ok up ∧ top.validate = .ok top ∧
      plainHost.locate (Stage.root ⟨"/jail", up.stagingPrefix⟩) =
        .ok [jail, Utf8.encode "up", Utf8.encode "stage"] ∧
      (plainHost.confined [jail]).locate up.stagingPrefix = .ok [jail, Utf8.encode "stage"] ∧
      plainHost.locate (Stage.root ⟨"/jail", top.stagingPrefix⟩) = .ok [jail] := by
  refine ⟨plain_plainHost, validateRoot_plainHost, by decide +kernel,
    Configuration.validate_eq_ok_iff.mpr (by decide +kernel),
    Configuration.validate_eq_ok_iff.mpr (by decide +kernel), by decide +kernel, by decide +kernel,
    by decide +kernel⟩

end Confinement
