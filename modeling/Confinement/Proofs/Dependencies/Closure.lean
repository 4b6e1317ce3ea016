import Confinement.Proofs.Dependencies.Chain
import Confinement.Proofs.FileSystem.FileName
import Mathlib.Data.List.Perm.Subperm

/-!
# All that is needed is opened

A steady loader gives the same answer whenever it is asked what an object needs
and what is mapped, and never fails.  With such a loader everything that a
chain of needed names leads to is opened (`traces_loadDependencies_of_steady`).

The depth to which names are followed does not get in the way.  A name that
leads deeper is the name of an entry of the file tree and was not looked at
before, so as long as the depth exceeds the number of names left (`Room`),
there is depth left as well.

What one stretch of the pursuit achieves is `Explored`: each name that was
first looked at on the way had its object opened, if it had one, and all that
this object needs was looked at, too.
-/

namespace Confinement

open Relation

variable {σ : Type}

/-- A loader whose answers do not change, and which finds no fault with any
object. -/
structure Loader.Steady (ld : Loader σ) (fs : FileSystem) : Prop where
  needed : ∀ path, ∃ names, ∀ st, (ld.needed path fs st).1 = .ok names
  isResident : ∀ name, ∃ mapped, ∀ st, (ld.isResident name fs st).1 = mapped
  load : ∀ path binding st, ∃ handle, (ld.load path binding fs st).1 = .ok handle

/-- A loader without a state that opens whatever it is asked for, has nothing
mapped, and says of each object what `needs` says. -/
def Loader.listing (needs : Path → List String) : Loader Unit where
  load _ _ _ s := (.ok 0, s)
  needed path _ s := (.ok (needs path), s)
  isResident _ _ s := (false, s)
  invoke _ _ _ fs s := (.back (.ok ()), fs, s)
  close _ s := s

theorem Loader.steady_listing (needs : Path → List String) (fs : FileSystem) :
    (Loader.listing needs).Steady fs where
  needed path := ⟨needs path, fun _ => rfl⟩
  isResident _ := ⟨false, fun _ => rfl⟩
  load _ _ _ := ⟨0, rfl⟩

/-! ## How deep a pursuit goes -/

namespace Node

/-- The names of all entries of a file tree. -/
def entryNames (n : Node) : List Bytes := n.faces.filterMap (·.1.getLast?)

theorem mem_entryNames {n : Node} {l : Location} {name : Bytes}
    (h : (n.look (l ++ [name])).isSome) : name ∈ n.entryNames := by
  obtain ⟨face, hface⟩ := Option.isSome_iff_exists.mp h
  exact List.mem_filterMap.mpr ⟨(l ++ [name], face), mem_faces hface, by simp⟩

mutual

theorem length_faces : ∀ n : Node, n.faces.length = n.nameCount + 1
  | .file .. | .link _ | .pipe _ => by simp [faces, nameCount]
  | .directory _ es => by
      rw [faces, List.length_cons, length_entryFaces es, nameCount]

theorem length_entryFaces : ∀ es : Entries, (entryFaces es).length = nameCountBelow es
  | [] => rfl
  | (_, node) :: rest => by
      rw [entryFaces, List.length_append, List.length_map, length_faces node,
        length_entryFaces rest, nameCountBelow]
      omega

end

theorem length_entryNames_le (n : Node) : n.entryNames.length ≤ n.nameCount := by
  -- The face of the node itself goes by no name.
  obtain ⟨face, below, hfaces⟩ : ∃ face below, n.faces = ([], face) :: below := by
    cases n <;> exact ⟨_, _, rfl⟩
  have hlength := n.length_faces
  rw [hfaces, List.length_cons] at hlength
  calc n.entryNames.length
      = (below.filterMap (·.1.getLast?)).length := by rw [entryNames, hfaces]; rfl
    _ ≤ below.length := List.length_filterMap_le _ below
    _ = n.nameCount := by omega

end Node

/-- What a search leads to ends with the name sought. -/
theorem exists_child_of_findLibrary {fs : FileSystem} {directories : List Path} {name : String}
    {found : Path} (h : findLibrary fs name directories = some found) :
    ∃ directory ∈ directories, found = directory.child (Utf8.encode name) ∧
      Path.IsName (Utf8.encode name) ∧ fs.isFile found := by
  rw [findLibrary] at h
  split at h
  · cases h
  · rename_i hcontains
    have hslash : '/' ∉ name.toList := by simpa using hcontains
    obtain ⟨directory, hmem, rfl⟩ := List.mem_map.mp (List.mem_of_find?_eq_some h)
    obtain ⟨l, mode, content, hfind⟩ := FileSystem.isFile_iff.mp (List.find?_some h)
    exact ⟨directory, hmem, rfl,
      FileSystem.isName_of_find_file (Utf8.slash_notMem_encode hslash) hfind, List.find?_some h⟩

theorem encode_mem_entryNames {fs : FileSystem} {directories : List Path} {name : String}
    (h : (findLibrary fs name directories).isSome) :
    Utf8.encode name ∈ fs.tree.entryNames := by
  obtain ⟨found, hfound⟩ := Option.isSome_iff_exists.mp h
  obtain ⟨directory, -, rfl, hname, hfile⟩ := exists_child_of_findLibrary hfound
  obtain ⟨l, mode, content, hfind⟩ := FileSystem.isFile_iff.mp hfile
  obtain ⟨d, -, -, hlook⟩ := FileSystem.exists_names_of_find_child hname hfind
  exact Node.mem_entryNames hlook

/-- Names that lead somewhere and were not looked at are fewer than the depth
that is left. -/
def Room (fs : FileSystem) (directories : List Path) (depth : Nat) (seen : List String) : Prop :=
  ∀ names : List String, names.Nodup →
    (∀ name ∈ names, name ∉ seen ∧ (findLibrary fs name directories).isSome) →
    names.length < depth

namespace Room

variable {fs : FileSystem} {directories : List Path} {depth : Nat} {seen seen' : List String}
  {name : String}

theorem initial (fs : FileSystem) (directories : List Path) :
    Room fs directories (fs.tree.nameCount + 1) [] := by
  intro names hnodup hnames
  have hsub : names.map Utf8.encode ⊆ fs.tree.entryNames := by
    intro bytes hbytes
    obtain ⟨name, hname, rfl⟩ := List.mem_map.mp hbytes
    exact encode_mem_entryNames (hnames name hname).2
  have hspelled : (names.map Utf8.encode).Nodup :=
    hnodup.map fun _ _ => Utf8.encode_injective
  have hle := (List.subperm_of_subset hspelled hsub).length_le
  rw [List.length_map] at hle
  have := fs.tree.length_entryNames_le
  omega

theorem not_zero : ¬ Room fs directories 0 seen := by
  intro h
  exact Nat.not_lt_zero _ (h [] List.nodup_nil (fun _ hname => absurd hname List.not_mem_nil))

theorem mono (h : Room fs directories depth seen) (hsub : seen ⊆ seen') :
    Room fs directories depth seen' := by
  intro names hnodup hnames
  apply h names hnodup
  intro name hname
  obtain ⟨hunseen, hfound⟩ := hnames name hname
  exact ⟨fun hmem => hunseen (hsub hmem), hfound⟩

/-- Looking at a name that leads somewhere takes up one step of depth. -/
theorem deeper (h : Room fs directories (depth + 1) seen) (hunseen : name ∉ seen)
    (hfound : (findLibrary fs name directories).isSome) :
    Room fs directories depth (name :: seen) := by
  intro names hnodup hnames
  have hnew : name ∉ names := by
    intro hmem
    exact (hnames name hmem).1 List.mem_cons_self
  have hlt := h (name :: names) (List.nodup_cons.mpr ⟨hnew, hnodup⟩) (by
    intro other hother
    rcases List.mem_cons.mp hother with rfl | hother
    · exact ⟨hunseen, hfound⟩
    · obtain ⟨hunseen', hfound'⟩ := hnames other hother
      exact ⟨fun hmem => hunseen' (List.mem_cons_of_mem name hmem), hfound'⟩)
  rw [List.length_cons] at hlt
  omega

end Room

/-! ## What a stretch of the pursuit achieves -/

namespace Action

variable {ld : Loader σ} {fs : FileSystem} {directories : List Path} {path : Path}

/-- Each name first looked at on the way had its object opened, and all that
the object needs was looked at. -/
structure Explored (ld : Loader σ) (fs : FileSystem) (directories : List Path)
    (before after : Visit) (calls : List Call) : Prop where
  kept : before.seen ⊆ after.seen
  opened : ∀ name ∈ after.seen, name ∉ before.seen → ld.Lacks fs name →
    ∀ found, findLibrary fs name directories = some found →
      .load found .global ∈ calls ∧ ∀ next, ld.Lists fs found next → next ∈ after.seen

namespace Explored

variable {before middle after : Visit} {calls calls' : List Call}

theorem refl (visit : Visit) : Explored ld fs directories visit visit [] where
  kept := List.Subset.refl _
  opened _ hmem hnew := absurd hmem hnew

theorem trans (h : Explored ld fs directories before middle calls)
    (h' : Explored ld fs directories middle after calls') :
    Explored ld fs directories before after (calls ++ calls') where
  kept := List.Subset.trans h.kept h'.kept
  opened := by
    intro name hmem hnew hlacks found hfind
    by_cases hmiddle : name ∈ middle.seen
    · obtain ⟨hload, hnext⟩ := h.opened name hmiddle hnew hlacks found hfind
      exact ⟨List.mem_append_left _ hload, fun next hlists => h'.kept (hnext next hlists)⟩
    · obtain ⟨hload, hnext⟩ := h'.opened name hmem hmiddle hlacks found hfind
      exact ⟨List.mem_append_right _ hload, hnext⟩

/-- A name that is mapped, or leads nowhere, is done with once it is looked
at. -/
theorem idle {visit : Visit} {name : String}
    (h : ld.Lacks fs name → findLibrary fs name directories = none) :
    Explored ld fs directories visit { visit with seen := name :: visit.seen } calls where
  kept := List.subset_cons_self _ _
  opened := by
    intro other hmem hnew hlacks found hfind
    rcases List.mem_cons.mp hmem with rfl | hmem
    · rw [h hlacks] at hfind
      cases hfind
    · exact absurd hmem hnew

/-- A name whose object was opened, after all that the object needs was looked
at. -/
theorem followed {visit : Visit} {name : String} {found : Path} {units : List CodeUnit}
    (hfind : findLibrary fs name directories = some found)
    (h : Explored ld fs directories { visit with seen := name :: visit.seen } after calls)
    (hneeds : ∀ next, ld.Lists fs found next → next ∈ after.seen) (hsub : calls ⊆ calls')
    (hload : .load found .global ∈ calls') :
    Explored ld fs directories visit { after with opened := units } calls' where
  kept := List.Subset.trans (List.subset_cons_self _ _) h.kept
  opened := by
    intro other hmem hnew hlacks found' hfind'
    by_cases heq : other = name
    · obtain rfl : found = found' := Option.some.inj (hfind.symm.trans (heq ▸ hfind'))
      exact ⟨hload, hneeds⟩
    · have hlater : other ∉ name :: visit.seen := by simp [heq, hnew]
      obtain ⟨hload', hnext⟩ := h.opened other hmem hlater hlacks found' hfind'
      exact ⟨hsub hload', hnext⟩

end Explored

/-! ## Steady loaders -/

theorem traces_needed_of_steady (hsteady : ld.Steady fs) :
    Traces fs (needed ld path) (Yields fun names calls =>
      calls = [.needed path] ∧ ∀ name, ld.Lists fs path name → name ∈ names) := by
  obtain ⟨names, hnames⟩ := hsteady.needed path
  apply traces_needed.mono
  rintro _ _ ⟨⟨st, rfl⟩, rfl⟩
  refine ⟨names, by rw [hnames]; rfl, rfl, ?_⟩
  rintro name ⟨st', names', hnames', hname⟩
  rw [hnames st'] at hnames'
  exact Except.ok.inj hnames' ▸ hname

theorem traces_isResident_of_steady (hsteady : ld.Steady fs) {name : String} :
    Traces fs (isResident ld name) (Yields fun mapped calls =>
      calls = [.isResident name] ∧ (ld.Lacks fs name → mapped = false)) := by
  obtain ⟨mapped, hmapped⟩ := hsteady.isResident name
  apply traces_isResident.mono
  rintro _ _ ⟨⟨st, rfl⟩, rfl⟩
  refine ⟨mapped, by rw [hmapped], rfl, ?_⟩
  rintro ⟨st', hlacks⟩
  rw [← hmapped st', hlacks]

theorem traces_load_of_steady (hsteady : ld.Steady fs) {binding : Binding} :
    Traces fs (load ld path binding) (Yields fun unit calls =>
      unit.origin = path ∧ calls = [.load path binding]) := by
  apply traces_load.mono
  rintro _ _ ⟨⟨st, rfl⟩, rfl⟩
  obtain ⟨handle, hhandle⟩ := hsteady.load path binding st
  exact ⟨⟨path, handle⟩, by rw [hhandle]; rfl, rfl, rfl⟩

/-- All that the object at `path` needs is looked at. -/
def Covers (ld : Loader σ) (fs : FileSystem) (directories : List Path) (path : Path)
    (before after : Visit) (calls : List Call) : Prop :=
  Explored ld fs directories before after calls ∧
    ∀ name, ld.Lists fs path name → name ∈ after.seen

/-- One name, looked at where there is room: the names that lie deeper have
room as well. -/
theorem traces_pursue_of_steady (hsteady : ld.Steady fs) {depth : Nat} {visit : Visit}
    (hdeeper : ∀ found visit, Room fs directories depth visit.seen →
      Traces fs (loadNeeded ld directories depth found visit)
        (Yields (Covers ld fs directories found visit)))
    (hroom : Room fs directories (depth + 1) visit.seen) (name : String) :
    Traces fs (pursue ld directories depth path visit name) (Yields fun after calls =>
      Explored ld fs directories visit after calls ∧ name ∈ after.seen) := by
  rw [pursue]
  split
  · rename_i hcontains
    exact traces_yields_pure ⟨.refl visit, by simpa using hcontains⟩
  · rename_i hcontains
    have hunseen : name ∉ visit.seen := by simpa using hcontains
    apply (traces_isResident_of_steady hsteady).yields_bind
    rintro mapped _ ⟨rfl, hlacks⟩
    cases mapped with
    | true =>
        refine traces_yields_pure ⟨.idle fun h => ?_, List.mem_cons_self⟩
        cases hlacks h
    | false =>
        apply Traces.quietly traces_files
        cases hfind : findLibrary fs name directories with
        | none =>
            apply Traces.quietly traces_note
            exact traces_yields_pure ⟨.idle fun _ => hfind, List.mem_cons_self⟩
        | some found =>
            -- The name is new and leads somewhere, so it takes up one of the names there is room
            -- for.
            have hbelow := hroom.deeper hunseen (by rw [hfind]; rfl)
            apply (hdeeper found { visit with seen := name :: visit.seen } hbelow).yields_bind
            rintro after calls ⟨hexplored, hneeds⟩
            apply Traces.quietly traces_note
            apply (traces_load_of_steady hsteady).yields_bind
            rintro unit _ ⟨-, rfl⟩
            refine traces_yields_pure ⟨hexplored.followed hfind hneeds ?_ (by simp), ?_⟩
            · intro call hcall
              simp [hcall]
            · exact hexplored.kept List.mem_cons_self

theorem traces_foldlM_pursue_of_steady (hsteady : ld.Steady fs) {depth : Nat}
    (hdeeper : ∀ found visit, Room fs directories depth visit.seen →
      Traces fs (loadNeeded ld directories depth found visit)
        (Yields (Covers ld fs directories found visit)))
    (names : List String) {visit : Visit} (hroom : Room fs directories (depth + 1) visit.seen) :
    Traces fs (names.foldlM (pursue ld directories depth path) visit)
      (Yields fun after calls =>
        Explored ld fs directories visit after calls ∧ ∀ name ∈ names, name ∈ after.seen) := by
  induction names generalizing visit with
  | nil => exact traces_yields_pure ⟨.refl visit, fun _ hmem => absurd hmem List.not_mem_nil⟩
  | cons name names ih =>
      rw [List.foldlM_cons]
      apply (traces_pursue_of_steady hsteady hdeeper hroom name).yields_bind
      rintro middle calls ⟨hfirst, hname⟩
      apply (ih (hroom.mono hfirst.kept)).mono
      rintro _ calls' ⟨after, rfl, hrest, hnames⟩
      refine ⟨after, rfl, hfirst.trans hrest, ?_⟩
      intro other hother
      rcases List.mem_cons.mp hother with rfl | hother
      · exact hrest.kept hname
      · exact hnames other hother

/-- Where there is room, all that an object needs is looked at, and all that
is found on the way is opened. -/
theorem traces_loadNeeded_of_steady (hsteady : ld.Steady fs) (depth : Nat) (path : Path)
    (visit : Visit) (hroom : Room fs directories depth visit.seen) :
    Traces fs (loadNeeded ld directories depth path visit)
      (Yields (Covers ld fs directories path visit)) := by
  induction depth generalizing path visit with
  | zero => exact absurd hroom Room.not_zero
  | succ depth ih =>
      rw [loadNeeded_succ]
      apply (traces_needed_of_steady hsteady).yields_bind
      rintro names _ ⟨rfl, hlists⟩
      apply (traces_foldlM_pursue_of_steady hsteady ih names hroom).mono
      rintro _ calls ⟨after, rfl, hexplored, hnames⟩
      refine ⟨after, rfl, ⟨hexplored.kept, ?_⟩, fun name hname => hnames name (hlists name hname)⟩
      intro name hmem hnew hlacks found hfind
      obtain ⟨hload, hnext⟩ := hexplored.opened name hmem hnew hlacks found hfind
      exact ⟨List.mem_cons_of_mem _ hload, hnext⟩

/-- A pursuit that began with no name looked at opens all that a chain of links
leads to. -/
theorem Covers.load_mem {after : Visit} {calls : List Call} {q : Path}
    (h : Covers ld fs directories path {} after calls)
    (hchain : TransGen (ld.Link fs directories) path q) : .load q .global ∈ calls := by
  obtain ⟨hexplored, hneeds⟩ := h
  have hlinked : ∀ {p found : Path}, (∀ name, ld.Lists fs p name → name ∈ after.seen) →
      ld.Link fs directories p found → .load found .global ∈ calls ∧
        ∀ name, ld.Lists fs found name → name ∈ after.seen := by
    rintro p found hseen ⟨name, hlists, hlacks, hfind⟩
    exact hexplored.opened name (hseen name hlists) List.not_mem_nil hlacks found hfind
  suffices hall : .load q .global ∈ calls ∧ ∀ name, ld.Lists fs q name → name ∈ after.seen from
    hall.1
  induction hchain with
  | single hlink => exact hlinked hneeds hlink
  | tail _ hlink ih => exact hlinked ih.2 hlink

/-- With a steady loader the dependencies of an object are opened without
fail, and all that a chain of links leads to is among them. -/
theorem traces_loadDependencies_of_steady (hsteady : ld.Steady fs) (path : Path) :
    Traces fs (loadDependencies ld path directories) (Yields fun _ calls =>
      ∀ q, TransGen (ld.Link fs directories) path q → .load q .global ∈ calls) := by
  apply Traces.closing
  apply Traces.quietly traces_files
  apply (traces_loadNeeded_of_steady hsteady _ path {} (.initial fs directories)).yields_bind
  intro after calls hcovers
  refine traces_yields_pure fun q hchain => ?_
  rw [List.append_nil]
  exact hcovers.load_mem hchain

end Action

end Confinement
