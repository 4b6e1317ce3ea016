import Confinement.Proofs.FileSystem.Retention
import Confinement.Proofs.Staging.Inside

/-!
# Staging happens once

A sequence of passes over one staging root, each over directories of its own,
is a list of rounds.  At most one round makes anything at or below the staging
root, also if it fails halfway: the first directory that any copy makes there
has the staging root above it, and from then on the root is a directory
(`isDirectory_of_populates`).  A pass that sees it is skipped, and one that
permission bits keep from seeing it changes nothing (`run_fs_of_located`).

What made the root a directory stays so, since no change takes a node away.
-/

namespace Confinement

open FileSystem

namespace Stage

variable {fs : FileSystem} {stage : Stage} {w w' : Scene} {source copy path p : Path}
  {l : Location} {ps : List Path} {node : Node} {t : Tally} {α : Type}
  {calls : List (List Path)}

/-! ## What a pass retains -/

/-- The nodes of `fs` are still there. -/
def Outlived (fs : FileSystem) (s : Scene) : Prop := Retains fs s.fs

theorem outlived_note (level : Level) (text : String) :
    Maintains (Outlived fs) (note level text) := by
  intro s s' r hs hrun
  cases hrun
  exact hs

theorem outlived_change {f : FileSystem → Except IoError Unit × FileSystem}
    (hf : ∀ before after result, f before = (result, after) → Retains before after) :
    Maintains (Outlived fs) (change path f) := by
  intro s s' r hs hrun
  cases r with
  | error e =>
      obtain ⟨io, hchange⟩ := run_change_eq_error hrun
      exact hs.trans (hf _ _ _ hchange)
  | ok =>
      obtain ⟨hchange, -⟩ := run_change_eq_ok.mp hrun
      exact hs.trans (hf _ _ _ hchange)

theorem outlived_change_whole {f : FileSystem → Except IoError FileSystem}
    (hf : ∀ before after, f before = .ok after → Retains before after) :
    Maintains (Outlived fs) (change path (whole f)) := by
  refine outlived_change fun before after result h => ?_
  cases result with
  | error e =>
      rw [whole_eq_error h]
      exact .refl before
  | ok => exact hf before after (whole_eq_ok.mp h)

theorem outlived_copyEntry : Maintains (Outlived fs) (copyEntry source copy node t) := by
  -- Whatever is copied, each of the steps by which it is takes nothing away.
  cases node with
  | directory =>
      have hmake : Maintains (Outlived fs) (change copy (·.makeDirectories copy)) :=
        outlived_change fun _ _ _ h => (adds_makeDirectories h).toKeeps.retains
      have hcopy : Maintains (Outlived fs) (copyDirectory source copy) := by
        refine hmake.bind fun _ => Maintains.get.bind fun s => ?_
        cases s.fs.lstat source with
        | error e => exact .throw _
        | ok node => exact outlived_change_whole fun _ _ => retains_setMode
      exact hcopy.bind fun _ => .pure _
  | link =>
      have hcopy : Maintains (Outlived fs) (copyLink source copy) := by
        refine Maintains.get.bind fun s => ?_
        cases s.fs.readLink source with
        | error e => exact .throw _
        | ok target => exact outlived_change_whole fun _ _ => retains_makeLink
      exact hcopy.bind fun _ => .pure _
  | file =>
      have hcopy : Maintains (Outlived fs) (change source (·.copyFile source copy)) :=
        outlived_change fun _ _ _ => retains_copyFile
      exact hcopy.bind fun _ => .pure _
  | pipe => exact (outlived_note _ _).bind fun _ => .pure _

theorem outlived_copyBelow {root : Path} (depth : Nat) (source copy : Path) (t : Tally) :
    Maintains (Outlived fs) (copyBelow root depth source copy t) := by
  induction depth generalizing source copy t with
  | zero => exact .pure t
  | succ depth ih =>
      refine Maintains.get.bind fun s => ?_
      cases s.fs.list source with
      | error e => exact .throw _
      | ok entries =>
          refine Maintains.foldlM (fun t e => ?_) entries t
          refine outlived_copyEntry.bind fun t₁ => ?_
          split
          · exact ih _ _ _
          · exact .pure _

theorem outlived_copyTree {target : Path} : Maintains (Outlived fs) (copyTree source target t) := by
  refine Maintains.get.bind fun s => ?_
  dsimp only
  split
  · exact .throw _
  split
  · exact .throw _
  refine outlived_copyEntry.bind fun t₁ => ?_
  split
  · exact outlived_copyBelow _ _ _ _
  · exact .pure _

theorem outlived_copyDirectoryTree : Maintains (Outlived fs) (stage.copyDirectoryTree t p) :=
  (outlived_note _ _).bind fun _ =>
    outlived_copyTree.tryCatch fun _ => (outlived_note _ _).bind fun _ => .throw _

theorem retains_run (stage : Stage) (fs : FileSystem) (ps : List Path) :
    Retains fs (stage.run fs ps).2.fs := by
  have hall : Maintains (Outlived fs) (stage.copyAll ps) := by
    refine Maintains.get.bind fun s => ?_
    split
    · exact (outlived_note _ _).bind fun _ => .pure _
    · exact (Maintains.foldlM (fun _ _ => outlived_copyDirectoryTree) ps _).bind fun _ =>
        (outlived_note _ _).bind fun _ => .pure _
  exact hall (s := ⟨fs, []⟩) (Retains.refl fs) rfl

/-! ## A staging root that is there -/

/-- A pass that sees the staging root is skipped. -/
theorem run_of_isDirectory (ps : List Path) (hroot : fs.isDirectory stage.root) :
    (stage.run fs ps).1 = .ok ⟨stage.root, true, {}⟩ ∧ (stage.run fs ps).2.fs = fs := by
  unfold run copyAll
  rw [run_bind_of_ok (run_get _)]
  simp only [hroot, if_true]
  exact ⟨rfl, rfl⟩

/-- Nothing can be made on the way to a copy if the staging root is there, but
not seen: it would be made beyond the staging root, which would then be seen. -/
theorem not_placed_of_located (hroot : ¬ fs.isDirectory stage.root)
    (hthere : fs.unbound.locate stage.root = .ok l) {q : Path} (hq : q.Begins (stage.copyPath p))
    {d : Location} {name : Bytes} {mode : Mode} : ¬ fs.Placed q d name mode := by
  intro hplaced
  obtain ⟨node, hfind⟩ := locate_eq_ok_iff.mp hthere
  obtain ⟨hfits, ⟨n, -, hwords⟩, -, -⟩ := find_true_eq_ok_iff.mp hfind
  have hsame : q.isAbsolute = stage.root.isAbsolute := by
    rw [hq.isAbsolute_eq, copyPath_isAbsolute]
  have hroad : fs.unbound.Walk n (fs.unbound.start q) stage.root.turns l := by
    rw [start, hsame, Path.turns_eq]
    exact hwords.unpad (pads_filter _)
  have hturns : q.turns <+: stage.root.turns ++ p.names := copyPath_turns stage p ▸ hq.turns_prefix
  obtain ⟨before, -, hmade, -⟩ := hplaced.unbound.exists_beyond hturns hroad
  exact hroot (hplaced.isDirectory_above hfits hsame hmade)

/-- A pass leaves the files alone if the staging root is there, seen or not. -/
theorem run_fs_of_located (hthere : fs.unbound.locate stage.root = .ok l) :
    (stage.run fs ps).2.fs = fs := by
  by_cases hroot : fs.isDirectory stage.root
  · exact (run_of_isDirectory ps hroot).2
  -- Nothing can be made on the way to any copy, so no copy begins.
  have hbarren : Barren fs stage := by
    intro p result fs₁ hmake
    by_contra hchanged
    obtain ⟨q, hq, made, hone⟩ := exists_makeDirectory_of_makeEach hmake hchanged
    obtain ⟨d, name, mode, hplaced, -⟩ := makeDirectory_eq_ok hone
    exact not_placed_of_located hroot hthere (begins_of_mem_lineage hq) hplaced
  obtain ⟨node, hfind⟩ := locate_eq_ok_iff.mp hthere
  have hfits := (find_true_eq_ok_iff.mp hfind).1
  obtain ⟨r, w, hrun⟩ : ∃ r w, (stage.copyAll ps).run ⟨fs, []⟩ = (r, w) := ⟨_, _, rfl⟩
  rw [run, hrun]
  rcases run_copyAll_cases hrun with hsame | ⟨-, r', w₁, hfold, hfs⟩
  · exact hsame
  · rw [hfs, fs_eq_of_foldlM hfits.ne_nil hroot hbarren rfl hfold]

/-! ## The first copy -/

/-- Only directories were made, or the staging root is one. -/
def Begun (stage : Stage) (fs : FileSystem) (s : Scene) : Prop :=
  AddsDirectories fs s.fs ∨ s.fs.unbound.isDirectory stage.root

/-- A directory is copied by making its copy with all that is missing above it,
and then the staging root is a directory. -/
theorem begun_copyDirectoryTree (hbytes : stage.root.bytes ≠ []) :
    Maintains (Begun stage fs) (stage.copyDirectoryTree t p) := by
  rintro w w' r (hadds | hroot) hrun
  · obtain ⟨r', w₁, w₂, hfs₁, htree, hfs₂⟩ := run_copyDirectoryTree_cases hrun
    rw [← hfs₁] at hadds
    rw [Begun, hfs₂]
    rcases run_copyTree_cases (endsWithSlash_copyPath hbytes p) htree with
      hsame | ⟨-, -, -, ⟨e, hfail⟩ | ⟨w₃, t₁, hcopy, hbelow⟩⟩
    · exact Or.inl (hsame ▸ hadds)
    · obtain ⟨result, hmake⟩ := copyDirectory_eq_error hfail
      exact Or.inl (hadds.trans (adds_makeDirectories hmake))
    · obtain ⟨made, _, hmake, -, hmode⟩ := copyDirectory_eq_ok hcopy
      -- The copy was made, so all above it is there, and the staging root stands above it.
      have hdir := isDirectory_makeDirectories (copyPath_ne_nil hbytes p) hmake
      have hbelow : Retains w₃.fs w₂.fs := outlived_copyBelow _ _ _ _ (Retains.refl _) hbelow
      have hafter := (retains_setMode hmode).trans hbelow
      exact Or.inr (hafter.isDirectory (isDirectory_root hbytes hdir))
  · have hafter : Retains w.fs w'.fs := outlived_copyDirectoryTree (Retains.refl _) hrun
    exact Or.inr (hafter.unbound.isDirectory hroot)

theorem begun_run (hbytes : stage.root.bytes ≠ []) :
    Begun stage fs (stage.run fs ps).2 := by
  obtain ⟨r, w, hrun⟩ : ∃ r w, (stage.copyAll ps).run ⟨fs, []⟩ = (r, w) := ⟨_, _, rfl⟩
  rw [run, hrun]
  rcases run_copyAll_cases hrun with hsame | ⟨-, r', w₁, hfold, hfs⟩
  · rw [Begun, hsame]
    exact Or.inl (.refl _ _)
  · rw [Begun, hfs]
    have hbegun : Begun stage fs ⟨fs, []⟩ := Or.inl (.refl _ _)
    exact Maintains.foldlM (fun _ _ => begun_copyDirectoryTree hbytes) ps _ hbegun hfold

/-! ## Rounds -/

/-- One pass of a sequence, with the files before and after it. -/
structure Round where
  before : FileSystem
  result : Except Failure StagingReport
  after : FileSystem

/-- One pass after the other, with no other change to the files in between. -/
def rounds (stage : Stage) (fs : FileSystem) : List (List Path) → List Round
  | [] => []
  | ps :: calls =>
    ⟨fs, (stage.run fs ps).1, (stage.run fs ps).2.fs⟩ :: stage.rounds (stage.run fs ps).2.fs calls

namespace Round

/-- The round reports that it was skipped, with all counts zero, and leaves the
files as they are. -/
def Skipped (stage : Stage) (x : Round) : Prop :=
  x.result = .ok ⟨stage.root, true, {}⟩ ∧ x.after = x.before

/-- The round makes something at or below the place where the staging root is
in the end. -/
def Populates (stage : Stage) (x : Round) : Prop :=
  ∃ place l, x.after.unbound.locate stage.root = .ok place ∧ place <+: l ∧
    x.before.tree.look l = none ∧ (x.after.tree.look l).isSome

theorem not_populates {x : Round} (hsame : x.after = x.before) : ¬ x.Populates stage := by
  rintro ⟨place, l, -, -, hnone, hsome⟩
  rw [hsame, hnone] at hsome
  cases hsome

end Round

theorem exists_of_mem_rounds {x : Round} (hx : x ∈ stage.rounds fs calls) :
    Retains fs x.before ∧ ∃ ps, x.result = (stage.run x.before ps).1 ∧
      x.after = (stage.run x.before ps).2.fs := by
  induction calls generalizing fs with
  | nil => cases hx
  | cons ps calls ih =>
      rcases List.mem_cons.mp hx with rfl | hx
      · exact ⟨.refl fs, ps, rfl, rfl⟩
      · obtain ⟨hretains, hround⟩ := ih hx
        exact ⟨(retains_run stage fs ps).trans hretains, hround⟩

theorem skipped_of_isDirectory (hroot : fs.isDirectory stage.root) {x : Round}
    (hx : x ∈ stage.rounds fs calls) : x.Skipped stage := by
  induction calls with
  | nil => cases hx
  | cons ps calls ih =>
      obtain ⟨hresult, hfs⟩ := run_of_isDirectory ps hroot
      rw [rounds, hfs] at hx
      rcases List.mem_cons.mp hx with rfl | hx
      · exact ⟨hresult, rfl⟩
      · exact ih hx

theorem after_eq_of_located (hthere : fs.unbound.locate stage.root = .ok l) {x : Round}
    (hx : x ∈ stage.rounds fs calls) : x.after = x.before := by
  induction calls with
  | nil => cases hx
  | cons ps calls ih =>
      rw [rounds, run_fs_of_located hthere] at hx
      rcases List.mem_cons.mp hx with rfl | hx
      · rfl
      · exact ih hx

/-- A round that makes anything at or below the staging root leaves a directory
there. -/
theorem isDirectory_of_populates {x : Round} (hpopulates : x.Populates stage) (ps : List Path)
    (hafter : x.after = (stage.run x.before ps).2.fs) :
    x.after.unbound.isDirectory stage.root := by
  obtain ⟨place, l, hplace, hbelow, hnone, hsome⟩ := hpopulates
  obtain ⟨node, hfind⟩ := locate_eq_ok_iff.mp hplace
  have hbegun : Begun stage x.before (stage.run x.before ps).2 :=
    begun_run (find_true_eq_ok_iff.mp hfind).1.ne_nil
  rw [Begun, ← hafter] at hbegun
  rcases hbegun with hadds | hroot
  · -- Only directories are new, so what has something new at or below it is one.
    obtain ⟨face, hface⟩ := Option.isSome_iff_exists.mp hsome
    have hdir : ∃ mode, x.after.tree.look place = some (.directory mode) := by
      by_cases heq : place = l
      · obtain ⟨mode, rfl⟩ := hadds.added l face hnone hface
        exact ⟨mode, heq ▸ hface⟩
      · exact Node.exists_directory_of_lt hsome hbelow heq
    obtain ⟨mode, hmode⟩ := hdir
    obtain ⟨es, hat⟩ := Node.look_eq_directory_iff.mp hmode
    obtain rfl := Option.some.inj ((at?_of_find hfind).symm.trans hat)
    exact isDirectory_iff.mpr ⟨place, mode, es, hfind⟩
  · exact hroot

/-- Staging happens once.  In a sequence of passes over one staging root, over
any directories and with any results, a pass that sees the staging root is
skipped, with all counts zero, and changes nothing, and so are all after it;
and a pass that makes anything at or below the staging root leaves a directory
there and is the last one to make or change anything.

A process that permission bits bind may not see the directory: it may lie
behind one that it may not search.  Then later passes change nothing either. -/
theorem rounds_once (stage : Stage) (fs : FileSystem) (calls : List (List Path)) :
    (∀ x ∈ stage.rounds fs calls,
      (x.before.isDirectory stage.root → x.Skipped stage) ∧
      (x.Populates stage → x.after.unbound.isDirectory stage.root ∧
        (fs.superuser → x.after.isDirectory stage.root))) ∧
    (stage.rounds fs calls).Pairwise fun x y =>
      (x.after.isDirectory stage.root → y.Skipped stage) ∧
      (x.after.unbound.isDirectory stage.root → y.after = y.before) ∧
      (x.Populates stage → y.after = y.before ∧ ¬ y.Populates stage) := by
  refine ⟨fun x hx => ⟨fun hroot => ?_, fun hpopulates => ?_⟩, ?_⟩
  · obtain ⟨-, ps, hresult, hafter⟩ := exists_of_mem_rounds hx
    obtain ⟨hskipped, hsame⟩ := run_of_isDirectory ps hroot
    exact ⟨hresult.trans hskipped, hafter.trans hsame⟩
  · obtain ⟨hretains, ps, -, hafter⟩ := exists_of_mem_rounds hx
    have hroot := isDirectory_of_populates hpopulates ps hafter
    have hsuper := (hretains.trans (hafter ▸ retains_run stage x.before ps)).superuser_eq
    refine ⟨hroot, fun hfs => ?_⟩
    rwa [unbound_eq (hsuper.trans hfs)] at hroot
  · -- The first round against all the later ones; those among themselves are a sequence again.
    induction calls generalizing fs with
    | nil => exact .nil
    | cons ps calls ih =>
        refine List.pairwise_cons.mpr ⟨fun y hy => ?_, ih _⟩
        have hstays : (stage.run fs ps).2.fs.unbound.isDirectory stage.root →
            y.after = y.before := by
          intro hroot
          obtain ⟨l, mode, es, hfind⟩ := isDirectory_iff.mp hroot
          exact after_eq_of_located (locate_eq_ok_iff.mpr ⟨_, hfind⟩) hy
        refine ⟨fun hroot => skipped_of_isDirectory hroot hy, hstays, fun hpopulates => ?_⟩
        have hroot := isDirectory_of_populates hpopulates ps rfl
        have hsame := hstays hroot
        exact ⟨hsame, Round.not_populates hsame⟩

end Stage

/-- A pass fails after its first directory, and the next one is skipped. -/
theorem rounds_once_linkedHost :
    let stage : Stage := ⟨"/jail", "/stage"⟩
    ∃ x y, stage.rounds linkedHost [["/lib", "/missing"], ["/a"]] = [x, y] ∧
      x.result.toOption = none ∧ x.Populates stage ∧ y.Skipped stage ∧ ¬ y.Populates stage := by
  intro stage
  obtain ⟨x, y, hrounds, hx⟩ : ∃ x y,
      stage.rounds linkedHost [["/lib", "/missing"], ["/a"]] = [x, y] ∧
        x = ⟨linkedHost, (stage.run linkedHost ["/lib", "/missing"]).1,
          (stage.run linkedHost ["/lib", "/missing"]).2.fs⟩ := ⟨_, _, rfl, rfl⟩
  have hfails : x.result.toOption = none := by
    rw [hx]
    decide +kernel
  have hpopulates : x.Populates stage := by
    rw [hx]
    refine ⟨["jail", "stage"].map Utf8.encode, ["jail", "stage", "lib"].map Utf8.encode, ?_⟩
    exact ⟨by decide +kernel, by decide +kernel, by decide +kernel, by decide +kernel⟩
  obtain ⟨hall, honce⟩ := Stage.rounds_once stage linkedHost [["/lib", "/missing"], ["/a"]]
  rw [hrounds] at hall honce
  obtain ⟨-, hleaves⟩ := hall x List.mem_cons_self
  obtain ⟨-, hroot⟩ := hleaves hpopulates
  obtain ⟨hskips, -, hlast⟩ := List.rel_of_pairwise_cons honce List.mem_cons_self
  exact ⟨x, y, hrounds, hfails, hpopulates, hskips (hroot rfl), (hlast hpopulates).2⟩

end Confinement
