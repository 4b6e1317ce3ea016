import Mathlib.Algebra.Order.BigOperators.Group.List
import Mathlib.Algebra.Order.Ring.Nat
import Confinement.Proofs.Staging.Regress

/-!
# What a pass copies

A `Tour` says for a directory which entries are copied, and how that ends.  The
pass that follows given tours (`followed`) never looks for what is there.

Where no directory of a pass holds the place that the staging root is made at,
the pass follows tours of entries that were there when it began, each of them
once (`run_followed`): it does not copy what it made.
-/

namespace Confinement

open FileSystem
open Node (IsEntryName)

/-- The number of nodes at and below the node at a path. -/
def FileSystem.extent (fs : FileSystem) (p : Path) : Nat :=
  match fs.lstat p with
  | .error _ => 0
  | .ok node => node.faces.length

namespace Stage

variable {fs₀ fs fs' : FileSystem} {stage : Stage} {w w' : Scene} {p copy : Path}
  {b l lt : Location} {K : List Bytes} {done rest ps : List Path} {mode : Mode} {es es' : Entries}
  {t : Tally} {α β : Type}

/-! ## Tours -/

/-- The entries of a directory that are copied, and how that ends. -/
structure Tour where
  source : Path
  entries : List (List Bytes × Node)
  stop : Option Failure

/-- The tour is one of a directory, not through a link in last place, and of
entries that are there, each once. -/
def Tour.Within (fs : FileSystem) (tour : Tour) : Prop :=
  ∃ l node, fs.find true tour.source = .ok (l, node) ∧ fs.lstat tour.source = .ok node ∧
    Toured fs l tour.entries

theorem Tour.Within.length_le {tour : Tour} (h : tour.Within fs) :
    tour.entries.length ≤ fs.extent tour.source := by
  obtain ⟨l, node, hfind, hstat, htoured⟩ := h
  rw [extent, hstat]
  exact htoured.length_le (at?_of_find hfind)

/-- The copy of a directory is announced, and its failure reported. -/
def reporting (s : Stage) (source : Path) (copying : Work Tally) : Work Tally := do
  note .debug ("Copying " ++ source.display ++ " to " ++ (s.location source).display)
  tryCatch copying fun e => do
    note .error ("Library staging aborted, partial tree left at " ++ s.root.display)
    throw e

theorem copyDirectoryTree_eq (s : Stage) (t : Tally) (p : Path) :
    s.copyDirectoryTree t p = s.reporting p (copyTree p (s.location p) t) := rfl

/-- A directory staged by its tour. -/
def visit (s : Stage) (t : Tally) (tour : Tour) : Work Tally :=
  s.reporting tour.source
    (travel tour.source (s.copyPath tour.source) tour.entries tour.stop t)

/-- Items staged one after the other, unless the staging root is there. -/
def inTurn (s : Stage) (items : List α) (one : Tally → α → Work Tally) : Work StagingReport := do
  if (← get).fs.isDirectory s.root then
    note .info ("Staging root " ++ s.root.display ++ " exists, skipping library copy")
    return ⟨s.root, true, {}⟩
  else
    let t ← items.foldlM one {}
    note .info ("Staged " ++ toString items.length ++ " search paths under " ++
      s.root.display ++ " (" ++ toString t.directories ++ " dirs, " ++ toString t.files ++
      " files, " ++ toString t.links ++ " symlinks)")
    return ⟨s.root, false, t⟩

theorem copyAll_eq (s : Stage) (ps : List Path) :
    s.copyAll ps = s.inTurn ps s.copyDirectoryTree := rfl

/-- A staging pass that follows tours. -/
def followed (s : Stage) (tours : List Tour) : Work StagingReport := s.inTurn tours s.visit

theorem exists_run_reporting (s : Stage) (p : Path) (w : Scene) : ∃ w₁, w₁.fs = w.fs ∧
    ∀ x y : Work Tally, x.run w₁ = y.run w₁ →
      (s.reporting p x).run w = (s.reporting p y).run w := by
  obtain ⟨w₁, hnote, hfs⟩ := exists_run_note .debug
    ("Copying " ++ p.display ++ " to " ++ (s.location p).display) w
  refine ⟨w₁, hfs, fun x y h => ?_⟩
  unfold reporting
  rw [run_bind_of_ok hnote, run_bind_of_ok hnote, run_tryCatch, run_tryCatch, h]

theorem run_inTurn_congr {items : List α} {others : List β} {one : Tally → α → Work Tally}
    {other : Tally → β → Work Tally} (hlength : items.length = others.length)
    (hfold : ¬ w.fs.isDirectory stage.root →
      (items.foldlM one {}).run w = (others.foldlM other {}).run w) :
    (stage.inTurn items one).run w = (stage.inTurn others other).run w := by
  unfold inTurn
  rw [run_bind_of_ok (run_get w), run_bind_of_ok (run_get w)]
  split
  · rfl
  · rename_i hroot
    rw [hlength]
    exact run_bind_congr _ (hfold hroot)

/-! ## One directory -/

/-- The copy of a directory was made: it is empty, and does not lie in the
directory, which looks as it did. -/
structure Opened (fs₀ fs : FileSystem) (p copy : Path) (l lt : Location) : Prop where
  aside : Aside fs copy l lt
  empty : ∀ name, fs.tree.look (lt ++ [name]) = none
  only : ∀ x found, fs.find true p = .ok (x, found) → x = l
  same : ∀ m, l <+: m → fs.tree.look m = fs₀.tree.look m

/-- A directory is copied by its tour. -/
theorem exists_copyTree_eq_travel (hstat : w.fs.lstat p = .ok (.directory mode es))
    (hlook : fs₀.tree.look l = some (.directory mode))
    (hopened : ∀ w₁, (copyDirectory p (stage.copyPath p)).run w = (.ok (), w₁) →
      ∃ lt, Opened fs₀ w₁.fs p (stage.copyPath p) l lt) (t : Tally) :
    ∃ entries stop, (copyTree p (stage.location p) t).run w =
      (travel p (stage.copyPath p) entries stop t).run w ∧ Toured fs₀ l entries := by
  obtain ⟨r, w', hrun⟩ : ∃ r w', (copyEntry p (stage.copyPath p) (.directory mode es) t >>=
    copyBelow p pathLimit p (stage.copyPath p)).run w = (r, w') := ⟨_, _, rfl⟩
  rw [run_copyTree_of_directory hstat, hrun]
  have hself : Toured fs₀ l [([], .directory mode es)] :=
    .singleton (by rw [List.append_nil]; exact hlook)
  have htravel := travel_singleton p (stage.copyPath p) [] (.directory mode es) t
  simp only [List.foldl_nil] at htravel
  rcases run_bind_cases hrun with ⟨e, hfail, rfl⟩ | ⟨t₁, w₁, hentry, hbelow⟩
  · exact ⟨_, none, by rw [htravel, hfail], hself⟩
  · obtain ⟨_, w₂, hcopy, hpure⟩ := run_bind_eq_ok.mp hentry
    obtain ⟨-, rfl⟩ := run_pure_eq_ok.mp hpure
    obtain ⟨lt, hthere⟩ := hopened w₂ hcopy
    -- The directory comes first, and what is below it never goes back to it, so the two stretches
    -- follow one another.
    obtain ⟨below, stop, hrest, htoured, hproper⟩ :=
      travels pathLimit hbelow hthere.aside hthere.empty hthere.only
    refine ⟨[([], .directory mode es)] ++ below, stop, ?_, ?_⟩
    · rw [travel_append (htravel ▸ hentry), hrest]
    · refine hself.append (htoured.of_look_eq hthere.same) fun e he e' he' heq => ?_
      rw [List.mem_singleton.mp he] at heq
      exact hproper e' he' heq.symm

theorem exists_visit_eq (hdir : fs₀.find true p = .ok (l, .directory mode es))
    (hstat₀ : fs₀.lstat p = .ok (.directory mode es))
    (hstat : w.fs.lstat p = .ok (.directory mode es'))
    (hopened : ∀ w₁ w₂, w₁.fs = w.fs →
      (copyDirectory p (stage.copyPath p)).run w₁ = (.ok (), w₂) →
      ∃ lt, Opened fs₀ w₂.fs p (stage.copyPath p) l lt) (t : Tally) :
    ∃ tour : Tour, tour.source = p ∧ tour.Within fs₀ ∧
      (stage.copyDirectoryTree t p).run w = (stage.visit t tour).run w := by
  obtain ⟨w₁, hfs, hreport⟩ := exists_run_reporting stage p w
  have hlook : fs₀.tree.look l = some (.directory mode) :=
    Node.look_eq_directory_iff.mpr ⟨es, at?_of_find hdir⟩
  rw [← hfs] at hstat
  obtain ⟨entries, stop, htravel, htoured⟩ :=
    exists_copyTree_eq_travel hstat hlook (fun w₂ hcopy => hopened w₁ w₂ hfs hcopy) t
  refine ⟨⟨p, entries, stop⟩, rfl, ⟨l, _, hdir, hstat₀, htoured⟩, ?_⟩
  rw [copyDirectoryTree_eq]
  exact hreport _ _ htravel

/-- Where the next copy is made outside of its directory. -/
theorem Laid.opened (h : Laid fs₀ b K done w.fs) (hunmade : Unmade fs₀ stage.root b K)
    (hparted : ∀ q ∈ done, Parted p.names q.names)
    (hdir : fs₀.find true p = .ok (l, .directory mode es))
    (hstat : w.fs.lstat p = .ok (.directory mode es')) (houtside : ¬ l <+: b)
    (hcopy : (copyDirectory p (stage.copyPath p)).run w = (.ok (), w')) :
    Opened fs₀ w'.fs p (stage.copyPath p) l (b ++ (K ++ p.names)) := by
  obtain ⟨hadds, hwell, hleads, -, hempty⟩ := h.made hunmade hparted hstat hcopy
  have hall := adds_more h.adds hadds
  have hlook : fs₀.tree.look l = some (.directory mode) :=
    Node.look_eq_directory_iff.mpr ⟨es, at?_of_find hdir⟩
  have hplace : ∀ names, ¬ l <+: b ++ (K ++ names) :=
    hunmade.not_prefix_place (by rw [hlook]; rfl) houtside
  exact ⟨⟨hwell, hleads, by rw [hall.look _ _ hlook]; rfl, hplace _⟩, hempty,
    fun x found hfind => hall.toKeeps.eq_of_find hdir hfind, fun m hm =>
      look_of_outside hall hunmade (by rw [hlook]; rfl) (fun q _ => hplace q.names) hm⟩

/-! ## The whole pass -/

/-- Directories are staged by their tours one after the other, if the state of
the pass sees to it. -/
theorem exists_foldlM_visit_eq {I : List Path → FileSystem → Prop}
    (hvisit : ∀ {done p rest w}, done ++ p :: rest = ps → I done w.fs → ∀ t, ∃ tour : Tour,
      tour.source = p ∧ tour.Within fs₀ ∧
        (stage.copyDirectoryTree t p).run w = (stage.visit t tour).run w)
    (hstep : ∀ {done p rest w w' t r}, done ++ p :: rest = ps → I done w.fs →
      (stage.copyDirectoryTree t p).run w = (r, w') → I (done ++ [p]) w'.fs)
    (hps : done ++ rest = ps) (hI : I done w.fs) (t : Tally) :
    ∃ tours : List Tour, tours.map Tour.source = rest ∧ (∀ tour ∈ tours, tour.Within fs₀) ∧
      (rest.foldlM stage.copyDirectoryTree t).run w = (tours.foldlM stage.visit t).run w := by
  induction rest generalizing done w t with
  | nil => exact ⟨[], rfl, fun tour htour => absurd htour List.not_mem_nil, rfl⟩
  | cons p rest ih =>
      obtain ⟨tour, hsource, hwithin, hone⟩ := hvisit hps hI t
      obtain ⟨r, w₁, hrun⟩ : ∃ r w₁, (stage.copyDirectoryTree t p).run w = (r, w₁) := ⟨_, _, rfl⟩
      have hnext : done ++ [p] ++ rest = ps := by rw [← hps]; simp
      have hall : ∀ tours : List Tour, (∀ tour ∈ tours, tour.Within fs₀) →
          ∀ other ∈ tour :: tours, other.Within fs₀ := by
        rintro tours htours other hother
        rcases List.mem_cons.mp hother with rfl | hother
        · exact hwithin
        · exact htours other hother
      -- After a failure nothing is done, so for the rest any tours will do; the induction has some.
      cases r with
      | error e =>
          obtain ⟨tours, hsources, htours, -⟩ := ih hnext (hstep hps hI hrun) t
          refine ⟨tour :: tours, by rw [List.map_cons, hsource, hsources], hall tours htours, ?_⟩
          rw [List.foldlM_cons, List.foldlM_cons, run_bind_of_error hrun,
            run_bind_of_error (hone ▸ hrun)]
      | ok t₁ =>
          obtain ⟨tours, hsources, htours, hrest⟩ := ih hnext (hstep hps hI hrun) t₁
          refine ⟨tour :: tours, by rw [List.map_cons, hsource, hsources], hall tours htours, ?_⟩
          rw [List.foldlM_cons, List.foldlM_cons, run_bind_of_ok hrun,
            run_bind_of_ok (hone ▸ hrun), hrest]

/-- A pass that copies outside of its directories follows tours. -/
theorem exists_tours (hwell : fs.tree.WellFormed) (hjail : fs.isDirectory stage.jailRoot)
    (hroot : ¬ fs.isDirectory stage.root)
    (hdirs : ∀ p ∈ ps, (fs.lstat p).map Node.isDirectory = .ok true)
    (hparted : ps.Pairwise fun p q => Parted p.names q.names) (houtlying : Outlying fs stage ps) :
    ∃ tours : List Tour, tours.map Tour.source = ps ∧ (∀ tour ∈ tours, tour.Within fs) ∧
      (ps.foldlM stage.copyDirectoryTree {}).run ⟨fs, []⟩ =
        (tours.foldlM stage.visit {}).run ⟨fs, []⟩ := by
  obtain ⟨r, mode, es, hjail⟩ := isDirectory_iff.mp hjail
  obtain ⟨hbytes, hbarren | ⟨b, K, hreach, hunmade⟩⟩ := barren_or_unmade hjail hroot
  · refine exists_foldlM_visit_eq (I := fun _ fs' => fs' = fs) ?_ ?_ (List.nil_append ps) rfl {}
    · rintro done p rest w rfl rfl t
      obtain ⟨l, mode, es, hdir, hstat⟩ := exists_directory_of_lstat (hdirs p (by simp))
      refine exists_visit_eq hdir hstat hstat (fun w₁ w₂ hfs hcopy => ?_) t
      rw [← hfs] at hbarren hroot
      exact absurd hcopy (hbarren.copyDirectory_ne_ok hbytes hroot)
    · intro done p rest w w' t r hps hfs hrun
      exact fs_eq_of_copyDirectoryTree hbytes hroot hbarren t p hfs hrun
  · have hlaid : Laid fs b K [] fs := ⟨hwell, .refl _ _⟩
    refine exists_foldlM_visit_eq (I := Laid fs b K) ?_ ?_ (List.nil_append ps) hlaid {}
    · rintro done p rest w rfl hlaid t
      have hp : p ∈ done ++ p :: rest := by simp
      obtain ⟨l, mode, es, hdir, hstat⟩ := exists_directory_of_lstat (hdirs p hp)
      obtain ⟨es', hstat'⟩ := hlaid.adds.toKeeps.lstat_directory hstat
      -- The way ends outside of what is copied, and so does all that the pass has laid there.
      have houtside : ¬ l <+: b := houtlying b hreach p hp l (locate_eq_ok_iff.mpr ⟨_, hdir⟩)
      refine exists_visit_eq hdir hstat hstat' (fun w₁ w₂ hfs hcopy =>
        ⟨b ++ (K ++ p.names), ?_⟩) t
      rw [← hfs] at hlaid hstat'
      exact hlaid.opened hunmade (parted_of_pairwise hparted) hdir hstat' houtside hcopy
    · rintro done p rest w w' t r rfl hlaid hrun
      exact hlaid.step hunmade (parted_of_pairwise hparted) hrun

/-- No place of a pass lies at or below another, and no directory holds the
place at which the staging root is to be made. -/
structure Detached (fs : FileSystem) (stage : Stage) (ps : List Path) : Prop where
  parted : ps.Pairwise fun p q => Parted p.names q.names
  outlying : Outlying fs stage ps

/-- A pass over directories that is skipped or copies outside of them does what
is done by following tours: for each directory it copies entries that were there
before the pass, each of them once, in no more steps than there were nodes.

A pass whose places lie apart is of this kind if it succeeds. -/
theorem run_followed (hwell : fs.tree.WellFormed) (hjail : fs.isDirectory stage.jailRoot)
    (hdirs : ∀ p ∈ ps, (fs.lstat p).map Node.isDirectory = .ok true) :
    (fs.isDirectory stage.root ∨ Detached fs stage ps → ∃ tours : List Tour,
      tours.map Tour.source = ps ∧ (∀ tour ∈ tours, tour.Within fs) ∧
        (tours.map fun tour => tour.entries.length).sum ≤ (ps.map fs.extent).sum ∧
        stage.run fs ps = (stage.followed tours).run ⟨fs, []⟩) ∧
      ∀ report w, stage.run fs ps = (.ok report, w) → report.skipped = false →
        (ps.Pairwise fun p q => Parted p.names q.names) → Detached fs stage ps := by
  have htours : ∀ tours : List Tour, tours.map Tour.source = ps →
      (∀ tour ∈ tours, tour.Within fs) →
      (tours.map fun tour => tour.entries.length).sum ≤ (ps.map fs.extent).sum := by
    rintro tours rfl hwithin
    rw [List.map_map]
    exact List.sum_le_sum fun tour htour => (hwithin tour htour).length_le
  refine ⟨fun h => ?_, fun report w hrun hskipped hparted =>
    ⟨hparted, outlying_of_run hwell hjail hdirs hparted hrun hskipped⟩⟩
  by_cases hroot : fs.isDirectory stage.root
  · -- Nothing is copied, so any tours will do.
    have hsources : (ps.map fun p => Tour.mk p [] none).map Tour.source = ps := by
      rw [List.map_map]
      exact List.map_id ps
    have hwithin : ∀ tour ∈ ps.map fun p => Tour.mk p [] none, tour.Within fs := by
      intro tour htour
      obtain ⟨p, hp, rfl⟩ := List.mem_map.mp htour
      obtain ⟨l, mode, es, hdir, hstat⟩ := exists_directory_of_lstat (hdirs p hp)
      exact ⟨l, _, hdir, hstat, .nil fs l⟩
    refine ⟨_, hsources, hwithin, htours _ hsources hwithin, ?_⟩
    rw [run, copyAll_eq]
    exact run_inTurn_congr (List.length_map _).symm fun hnot => absurd hroot hnot
  · obtain ⟨hparted, houtlying⟩ := h.resolve_left hroot
    obtain ⟨tours, hsources, hwithin, hfold⟩ :=
      exists_tours hwell hjail hroot hdirs hparted houtlying
    refine ⟨tours, hsources, hwithin, htours _ hsources hwithin, ?_⟩
    rw [run, copyAll_eq]
    refine run_inTurn_congr ?_ fun _ => hfold
    rw [← hsources, List.length_map]

end Stage

/-- The jail's root may be one of the directories, where the way to the staging
root leads out of it. -/
theorem run_followed_linkedHost :
    let stage : Stage := ⟨"/jail", "/away/stage"⟩
    let ps := [Path.ofString "/lib", Path.ofString "/jail"]
    linkedHost.tree.WellFormed ∧ linkedHost.isDirectory stage.jailRoot ∧
      (∀ p ∈ ps, (linkedHost.lstat p).map Node.isDirectory = .ok true) ∧
      Stage.Detached linkedHost stage ps ∧ ∃ tours : List Stage.Tour,
        tours.map Stage.Tour.source = ps ∧ (∀ tour ∈ tours, tour.Within linkedHost) ∧
          (tours.map fun tour => tour.entries.length).sum ≤ 6 ∧
          stage.run linkedHost ps = (stage.followed tours).run ⟨linkedHost, []⟩ := by
  intro stage ps
  have hwell : linkedHost.tree.WellFormed := by decide +kernel
  have hjail : linkedHost.isDirectory stage.jailRoot := by decide +kernel
  have hdirs : ∀ p ∈ ps, (linkedHost.lstat p).map Node.isDirectory = .ok true := by decide +kernel
  have hextent : (ps.map linkedHost.extent).sum = 6 := by decide +kernel
  have hparted : ps.Pairwise fun p q => Stage.Parted p.names q.names := by decide +kernel
  have hok : (stage.run linkedHost ps).1 =
      .ok ⟨"/jail/away/stage", false, ⟨3, 1, 2⟩⟩ := by decide +kernel
  obtain ⟨hfollowed, hdetached⟩ := @Stage.run_followed linkedHost stage ps hwell hjail hdirs
  have hcondition : Stage.Detached linkedHost stage ps := by
    generalize hpass : stage.run linkedHost ps = result at hok
    obtain ⟨r, w⟩ := result
    subst hok
    exact hdetached _ w hpass rfl hparted
  obtain ⟨tours, hsources, hwithin, hsum, hrun⟩ := hfollowed (Or.inr hcondition)
  rw [hextent] at hsum
  exact ⟨hwell, hjail, hdirs, hcondition, tours, hsources, hwithin, hsum, hrun⟩

/-- A pass over the directory that the staging root is made in copies the staging
root into its copy; a long path soon puts an end to that.  What is listed twice
is copied twice, and behind a link that was copied a copy adds to a directory
that is still to be copied. -/
theorem run_copies_copies :
    let inside : Stage := ⟨"/out", "/stage"⟩
    let twice : Stage := ⟨"/jail", "/stage"⟩
    let behind : Stage := ⟨"/jail/data", "/stage"⟩
    let long : Path := ⟨Utf8.encode "/out" ++ List.replicate 4087 Path.slash⟩
    let out := Utf8.encode "out"
    let root := Utf8.encode "stage"
    linkedHost.tree.WellFormed ∧
      (∀ p ∈ [long, "/lib", "/b/a", "/b/../a", "/out"],
        (linkedHost.lstat p).map Node.isDirectory = .ok true) ∧
      (linkedHost.tree.look [out, root] = none ∧
        (inside.run linkedHost [long]).2.fs.tree.look [out, root, out, root] =
          some (.directory 0o755)) ∧
      (linkedHost.extent "/lib" = 2 ∧
        (twice.run linkedHost ["/lib", "/lib"]).1 = .ok ⟨"/jail/stage", false, ⟨2, 2, 0⟩⟩) ∧
      linkedHost.tree.look [out, Utf8.encode "h"] = none ∧
      (behind.run linkedHost ["/b/a", "/b/../a", "/out"]).2.fs.tree.look
        [Utf8.encode "jail", Utf8.encode "data", root, out, Utf8.encode "h"] =
          some (.file 0o644 [0]) := by
  decide +kernel

end Confinement
