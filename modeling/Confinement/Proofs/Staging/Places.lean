import Confinement.Proofs.Path.Nesting
import Confinement.Proofs.Staging.Pass
import Confinement.Standpoint

/-!
# Staged places

A search path is staged at its names alone: what makes it absolute or relative
is forgotten, and so is every `..` in it.  So two staged places nest exactly
when the names of the paths do (`location_isBelow_iff`), and paths that lie
apart are staged apart where nothing is forgotten: they take no `..` and start
at the same place (`parted_names_iff`).

The host spells the place of a directory below the jail's root, the child below
its own.  Both mean one place (`location_eq_reroot_stagedPath`).
-/

namespace Confinement

open Confinement.Path (Component)

namespace Stage

variable {stage : Stage} {p q : Path} {ps : List Path}

theorem map_normal_prefix_iff {names names' : List Bytes} :
    names.map Component.normal <+: names'.map Component.normal ↔ names <+: names' :=
  List.prefix_map_iff_of_injective fun _ _ => Component.normal.inj

theorem location_isBelow_iff :
    (stage.location p).isBelow (stage.location q) ↔ q.names <+: p.names := by
  rw [Path.isBelow_iff, location, location, Path.components_reroot, Path.components_reroot,
    List.prefix_append_right_inj, map_normal_prefix_iff]

theorem location_apart_iff :
    (stage.location p).Apart (stage.location q) ↔ Parted p.names q.names := by
  rw [Path.Apart, location_isBelow_iff, location_isBelow_iff]
  exact And.comm

/-- Paths that take no `..` have no turns but their names. -/
theorem components_eq_of_notMem (hp : Path.dotdot ∉ p.turns) :
    p.components = p.origin ++ p.names.map Component.normal := by
  have hturns : p.turns = p.names := by
    rw [Path.names_eq, eq_comm, List.filter_eq_self]
    intro turn hturn
    have hne : turn ≠ Path.dotdot := fun heq => hp (heq ▸ hturn)
    simpa using hne
  rw [Path.components_eq, hturns]
  congr 1
  exact List.map_congr_left fun name hname => if_neg (Path.isName_of_mem_names hname).ne_dotdot

theorem parted_names_iff (hp : Path.dotdot ∉ p.turns) (hq : Path.dotdot ∉ q.turns)
    (horigin : p.origin = q.origin) : Parted p.names q.names ↔ p.Apart q := by
  rw [Path.Apart, Path.isBelow_iff, Path.isBelow_iff, components_eq_of_notMem hp,
    components_eq_of_notMem hq, horigin, List.prefix_append_right_inj, List.prefix_append_right_inj,
    map_normal_prefix_iff, map_normal_prefix_iff]
  exact And.comm

theorem not_isBelow_of_apart {a b d : Path} (h : a.Apart b) (ha : d.isBelow a) : ¬ d.isBelow b :=
  fun hb => (Path.isBelow_or_isBelow_of_isBelow ha hb).elim h.1 h.2

/-- Search paths that lie apart are staged apart if and only if neither of two
takes all names of the other before its own.  That is so for paths without
`..` that are all absolute, or all relative in the same way.  Then no path lies
at or below two staged places. -/
theorem pairwise_apart_location_iff (stage : Stage) (hapart : ps.Pairwise Path.Apart) :
    ((ps.Pairwise fun p q => (stage.location p).Apart (stage.location q)) ↔
        ps.Pairwise fun p q => Parted p.names q.names) ∧
      ((∀ p ∈ ps, Path.dotdot ∉ p.turns) → (∀ p ∈ ps, ∀ q ∈ ps, p.origin = q.origin) →
        ps.Pairwise fun p q => Parted p.names q.names) ∧
      ((ps.Pairwise fun p q => Parted p.names q.names) →
        ps.Pairwise fun p q => ∀ d : Path,
          d.isBelow (stage.location p) → ¬ d.isBelow (stage.location q)) := by
  refine ⟨?_, fun hplain horigin => ?_, fun hparted => ?_⟩
  · simp only [location_apart_iff]
  · refine hapart.imp_of_mem fun {p q} hp hq h => ?_
    exact (parted_names_iff (hplain p hp) (hplain q hq) (horigin p hp q hq)).mpr h
  · exact hparted.imp fun h d => not_isBelow_of_apart (location_apart_iff.mpr h)

/-- Absolute paths without `..` keep apart. -/
theorem pairwise_apart_location_lib64 :
    let stage : Stage := ⟨"/jail", "/stage"⟩
    let ps := [Path.ofString "/usr/lib", Path.ofString "/usr/lib64", Path.ofString "/lib"]
    ps.Pairwise Path.Apart ∧ (ps.Pairwise fun p q => (stage.location p).Apart (stage.location q)) ∧
      ps.Pairwise fun p q => ∀ d : Path,
        d.isBelow (stage.location p) → ¬ d.isBelow (stage.location q) := by
  intro stage ps
  have hapart : ps.Pairwise Path.Apart := by decide +kernel
  obtain ⟨hplaces, hnames, hbelow⟩ := pairwise_apart_location_iff stage hapart
  have hparted := hnames (by decide +kernel) (by decide +kernel)
  exact ⟨hapart, hplaces.mpr hparted, hbelow hparted⟩

/-- A `..` is no part of the place, and neither is the slash at the beginning:
paths that lie apart are staged at one place. -/
theorem location_eq_of_dotdot :
    let stage : Stage := ⟨"/jail", "/stage"⟩
    ([Path.ofString "/x/a", Path.ofString "/x/../a", Path.ofString "x/a"].Pairwise Path.Apart) ∧
      stage.location "/x/a" = "/jail/stage/x/a" ∧ stage.location "/x/../a" = "/jail/stage/x/a" ∧
      stage.location "x/a" = "/jail/stage/x/a" := by
  decide +kernel

/-! ## Seen from both sides -/

/-- Among absolute paths without `..` the names tell which lies below which. -/
theorem names_prefix_iff (hp : p.isAbsolute) (hq : q.isAbsolute) (hpup : .parent ∉ p.components)
    (hqup : .parent ∉ q.components) : q.names <+: p.names ↔ p.isBelow q := by
  have horigin : p.origin = q.origin := by rw [Path.origin, Path.origin, if_pos hp, if_pos hq]
  rw [Path.isBelow_iff, components_eq_of_notMem (Path.dotdot_notMem_turns hpup),
    components_eq_of_notMem (Path.dotdot_notMem_turns hqup), horigin,
    List.prefix_append_right_inj, map_normal_prefix_iff]

/-- The place of a directory seen from the host is the jail's root with the
place seen from the jail below it.  Whatever is re-rooted stands below its new
root, at its own names and nothing else, and what is re-rooted twice is
re-rooted once.  Absolute paths without `..` are staged below each other just
as they lie. -/
theorem location_eq_reroot_stagedPath (jailRoot staging : Path) :
    (∀ q, (Stage.mk jailRoot staging).location q = jailRoot.reroot (stagedPath staging q)) ∧
    (∀ root q : Path, (root.reroot q).isBelow root ∧
      (root.reroot q).componentsBelow root = q.components.filter (·.name?.isSome)) ∧
    (∀ root p q : Path, (root.reroot p).reroot q = root.reroot (p.reroot q)) ∧
    ∀ p q : Path, p.isAbsolute → q.isAbsolute → .parent ∉ p.components → .parent ∉ q.components →
      (p.isBelow q ↔ ((Stage.mk jailRoot staging).location p).isBelow
        ((Stage.mk jailRoot staging).location q)) := by
  refine ⟨fun q => Path.reroot_reroot jailRoot staging q, fun root q => ?_, Path.reroot_reroot,
    fun p q hp hq hpup hqup => ?_⟩
  · have hcomponents := Path.components_reroot root q
    refine ⟨Path.isBelow_iff.mpr ⟨_, hcomponents.symm⟩, ?_⟩
    rw [Path.componentsBelow_of_eq_append hcomponents, Path.map_normal_names]
  · rw [location_isBelow_iff, names_prefix_iff hp hq hpup hqup]

/-- A relative root that ends with a slash, a prefix with `..`, and paths with
idle segments. -/
theorem location_eq_reroot_stagedPath_idle :
    let stage : Stage := ⟨"jail/", "../stage"⟩
    stage.location "/usr/./lib/x" = "jail/stage/usr/lib/x" ∧
      stage.location "/usr/./lib/x" = Path.reroot "jail/" (stagedPath "../stage" "/usr/./lib/x") ∧
      Path.componentsBelow (Path.reroot "jail/" "/usr/./lib/x") "jail/" =
        ["usr", "lib", "x"].map (.normal ∘ Utf8.encode) ∧
      Path.isBelow "/usr/./lib/x" "//usr/lib/" ∧
      (stage.location "/usr/./lib/x").isBelow (stage.location "//usr/lib/") := by
  intro stage
  obtain ⟨hplace, hnames, -, hbelow⟩ := location_eq_reroot_stagedPath "jail/" "../stage"
  have hlies : Path.isBelow "/usr/./lib/x" "//usr/lib/" := by decide +kernel
  refine ⟨by decide +kernel, hplace _, ?_, hlies, ?_⟩
  · rw [(hnames _ _).2]
    decide +kernel
  · exact (hbelow _ _ (by decide) (by decide) (by decide) (by decide)).mp hlies

end Stage

end Confinement
