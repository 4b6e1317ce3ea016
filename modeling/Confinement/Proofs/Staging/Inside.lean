import Confinement.Proofs.Jail.StagingRoot
import Confinement.Proofs.Staging.Pass

/-!
# Staging inside the jail

A path is confined to the jail as text only: links on the way to the staging
root are followed wherever they lead.  So all that a pass makes stands beyond
the last directory there is on that way, and the pass keeps to the jail if and
only if that directory is inside (`run_inside_iff`).  This holds of every pass,
also of one that fails halfway, so long as no staged place lies at or below
another: a link that was copied is followed by a copy made behind it.

Nothing that was there is changed.
-/

namespace Confinement

open FileSystem
open Node (IsEntryName)

namespace Stage

variable {fs₀ fs : FileSystem} {stage : Stage} {w w' : Scene} {source copy root p : Path}
  {b l : Location} {K : List Bytes} {done rest ps : List Path} {node : Node} {t : Tally}
  {r : Except Failure Tally}

/-! ## One directory, whatever comes of it -/

/-- Under a path that ends with a slash nothing is made but directories. -/
theorem copyEntry_of_slash (hslash : copy.endsWithSlash) (hnode : node.isDirectory = false)
    (h : (copyEntry source copy node t).run w = (r, w')) :
    w'.fs = w.fs ∧ ∀ t', r = .ok t' → ∃ mode, node = .pipe mode := by
  cases node with
  | directory => cases hnode
  | link target =>
      rcases run_bind_cases h with ⟨e, hcopy, rfl⟩ | ⟨_, w₁, hcopy, -⟩
      · exact ⟨copyLink_eq_error hcopy, nofun⟩
      · exact absurd hcopy (run_copyLink_ne_ok hslash)
  | file mode content =>
      rcases run_bind_cases h with ⟨e, hcopy, rfl⟩ | ⟨_, w₁, hcopy, -⟩
      · obtain ⟨io, hcopy⟩ := run_change_eq_error hcopy
        exact ⟨copyFile_eq_error hcopy, nofun⟩
      · obtain ⟨hcopy, -⟩ := run_change_eq_ok.mp hcopy
        obtain ⟨_, _, opened, -, -, -, -, hopen, -⟩ := copyFile_eq_ok hcopy
        exact absurd hopen (openEmpty_ne_ok hslash)
  | pipe mode =>
      cases h
      exact ⟨rfl, fun _ _ => ⟨mode, rfl⟩⟩

/-- Where no directory is seen nothing is copied. -/
theorem fs_eq_of_copyTree (hslash : (stage.copyPath p).endsWithSlash)
    (hdir : ∀ mode es, w.fs.lstat p ≠ .ok (.directory mode es))
    (h : (copyTree p (stage.location p) t).run w = (r, w')) : w'.fs = w.fs := by
  unfold copyTree at h
  rw [run_bind_of_ok (run_get w)] at h
  cases hstat : w.fs.lstat p with
  | error e =>
      simp only [hstat] at h
      cases h
      rfl
  | ok node =>
      have hnode : node.isDirectory = false := by
        cases node with
        | directory mode es => exact absurd hstat (hdir mode es)
        | file | link | pipe => rfl
      cases hdescends : descends w.fs p node with
      | error e =>
          simp only [hstat, hdescends] at h
          cases h
          rfl
      | ok deeper =>
          simp only [hstat, hdescends] at h
          -- The path of a copy ends with a slash, so what is no directory cannot be copied there;
          -- nothing happens but that a pipe is left out.
          rcases run_bind_cases h with ⟨e, hentry, rfl⟩ | ⟨t₁, w₁, hentry, hend⟩
          · exact (copyEntry_of_slash hslash hnode hentry).1
          · obtain ⟨hfs, hpipe⟩ := copyEntry_of_slash hslash hnode hentry
            obtain ⟨mode, rfl⟩ := hpipe t₁ rfl
            obtain rfl : false = deeper := Except.ok.inj hdescends
            obtain ⟨-, rfl⟩ := Prod.mk.inj hend
            exact hfs

/-- A search directory is copied by making its copy and then copying what is
in it, if it is a directory; else nothing changes. -/
theorem run_copyTree_cases (hslash : (stage.copyPath p).endsWithSlash)
    (h : (copyTree p (stage.location p) t).run w = (r, w')) :
    w'.fs = w.fs ∨ ∃ mode es, w.fs.lstat p = .ok (.directory mode es) ∧
      ((∃ e, (copyDirectory p (stage.copyPath p)).run w = (.error e, w')) ∨
        ∃ w₁ t₁, (copyDirectory p (stage.copyPath p)).run w = (.ok (), w₁) ∧
          (copyBelow p (4095 + 1) p (stage.copyPath p) t₁).run w₁ = (r, w')) := by
  by_cases hdir : ∃ mode es, w.fs.lstat p = .ok (.directory mode es)
  · obtain ⟨mode, es, hstat⟩ := hdir
    refine Or.inr ⟨mode, es, hstat, ?_⟩
    rw [run_copyTree_of_directory hstat] at h
    rcases run_bind_cases h with ⟨e, hentry, rfl⟩ | ⟨t₁, w₁, hentry, h⟩
    · rcases run_bind_cases hentry with ⟨e', hcopy, -⟩ | ⟨_, w₂, -, hpure⟩
      · exact Or.inl ⟨e', hcopy⟩
      · cases hpure
    · obtain ⟨_, w₂, hcopy, hpure⟩ := run_bind_eq_ok.mp hentry
      obtain ⟨rfl, rfl⟩ := run_pure_eq_ok.mp hpure
      exact Or.inr ⟨w₂, _, hcopy, h⟩
  · exact Or.inl (fs_eq_of_copyTree hslash (fun mode es hstat => hdir ⟨mode, es, hstat⟩) h)

theorem run_copyDirectoryTree_cases (h : (stage.copyDirectoryTree t p).run w = (r, w')) :
    ∃ r' w₁ w₂, w₁.fs = w.fs ∧ (copyTree p (stage.location p) t).run w₁ = (r', w₂) ∧
      w'.fs = w₂.fs := by
  unfold copyDirectoryTree at h
  obtain ⟨w₁, hnote, hfs⟩ := exists_run_note .debug
    ("Copying " ++ p.display ++ " to " ++ (stage.location p).display) w
  rw [run_bind_of_ok hnote] at h
  rcases run_tryCatch_cases h with htree | ⟨e, w₂, htree, hhandler⟩
  · exact ⟨r, w₁, w', hfs, htree, rfl⟩
  · cases hhandler
    exact ⟨_, w₁, w₂, hfs, htree, rfl⟩

theorem copies_of_rung {face : Face} (h : Rung b (K ++ p.names) l face) :
    Copies b K [p] l face := by
  obtain ⟨before, hbefore, -, rfl, hmode⟩ := h
  refine ⟨p, List.mem_singleton_self p, ?_⟩
  by_cases hall : before = K ++ p.names
  · exact Or.inr (hall ▸ List.prefix_refl _)
  · exact Or.inl ⟨before, hbefore, hall, rfl, hmode⟩

namespace Laid

theorem heads (h : Laid fs₀ b K done fs) (hunmade : Unmade fs₀ stage.root b K)
    (hparted : ∀ q ∈ done, Parted p.names q.names) :
    fs.Heads (stage.copyPath p) b (K ++ p.names) := by
  obtain ⟨lead, hlead, n, -, hwalk⟩ := hunmade.lead
  refine ⟨⟨lead, ?_, n, ?_⟩, fun key hkey => ?_, h.clear hunmade.clear hunmade.look_root hparted⟩
  · rw [copyPath_turns, hlead, List.append_assoc]
  · rw [h.adds.start_eq, start, copyPath_isAbsolute]
    exact hwalk.mono h.adds.toKeeps
  · rcases List.mem_append.mp hkey with hkey | hkey
    · exact hunmade.isName key hkey
    · exact Path.isName_of_mem_names hkey

theorem entryNames_of_copyDirectory (hunmade : Unmade fs₀ stage.root b K) {key : Bytes}
    (hkey : key ∈ K ++ p.names)
    (hok : (copyDirectory source (stage.copyPath p)).run w = (.ok (), w')) : IsEntryName key := by
  obtain ⟨fs₁, -, hmake, -⟩ := copyDirectory_eq_ok hok
  obtain ⟨l, mode, es, hfind⟩ := isDirectory_iff.mp
    (isDirectory_makeDirectories (copyPath_ne_nil hunmade.bytes_ne_nil p) hmake)
  apply isEntryName_of_mem_names hfind
  rw [copyPath_names]
  rcases List.mem_append.mp hkey with hkey | hkey
  · exact List.mem_append_left _ (hunmade.mem_names hkey)
  · exact List.mem_append_right _ hkey

/-- The copy of the next directory, if it was made, is a directory of its own
and still empty. -/
theorem made {mode : Mode} {es : Entries} (h : Laid fs₀ b K done w.fs)
    (hunmade : Unmade fs₀ stage.root b K) (hparted : ∀ q ∈ done, Parted p.names q.names)
    (hstat : w.fs.lstat p = .ok (.directory mode es))
    (hcopy : (copyDirectory p (stage.copyPath p)).run w = (.ok (), w')) :
    Adds (Copies b K [p]) w.fs w'.fs ∧ w'.fs.tree.WellFormed ∧
      w'.fs.Leads (stage.copyPath p) (b ++ (K ++ p.names)) ∧
      w'.fs.tree.look (b ++ (K ++ p.names)) = some (.directory mode) ∧
      ∀ key, w'.fs.tree.look (b ++ (K ++ p.names) ++ [key]) = none := by
  have hnames : ∀ key ∈ K ++ p.names, IsEntryName key :=
    fun key hkey => entryNames_of_copyDirectory hunmade hkey hcopy
  have hsite := hunmade.site fun key hkey => hnames key (List.mem_append_left _ hkey)
  exact h.of_copyDirectory hsite hunmade.look_root hparted
    (fun key hkey => hnames key (List.mem_append_right _ hkey))
    (List.append_ne_nil_of_left_ne_nil hunmade.ne_nil _) hstat hcopy

/-- One more directory, whatever comes of it. -/
theorem step (h : Laid fs₀ b K done w.fs) (hunmade : Unmade fs₀ stage.root b K)
    (hparted : ∀ q ∈ done, Parted p.names q.names)
    (hrun : (stage.copyDirectoryTree t p).run w = (r, w')) : Laid fs₀ b K (done ++ [p]) w'.fs := by
  obtain ⟨r', w₁, w₂, hfs₁, htree, hfs₂⟩ := run_copyDirectoryTree_cases hrun
  rw [← hfs₁] at h
  rw [hfs₂]
  -- It did nothing, or failed while its copy was made, or made it and went on below.
  rcases run_copyTree_cases (endsWithSlash_copyPath hunmade.bytes_ne_nil p) htree with
    hsame | ⟨mode, es, hstat, ⟨e, hfail⟩ | ⟨w₃, t₁, hcopy, hbelow⟩⟩
  · rw [hsame]
    exact ⟨h.wellFormed, adds_more h.adds (.refl _ _)⟩
  · obtain ⟨result, hmake⟩ := copyDirectory_eq_error hfail
    obtain ⟨hadds, hwell⟩ := (h.heads hunmade hparted).adds_makeDirectories hmake
    exact ⟨hwell h.wellFormed, adds_more h.adds (hadds.mono fun _ _ hnew => copies_of_rung hnew)⟩
  · obtain ⟨hadds, hwell, hleads, -, hempty⟩ := h.made hunmade hparted hstat hcopy
    obtain ⟨hadds', hwell', -⟩ := copyBelow_spec hbelow hwell hleads hempty
    exact ⟨hwell', adds_more h.adds (hadds.trans (hadds'.mono fun _ _ hnew =>
      copies_of_below (List.mem_singleton_self p) hnew))⟩

/-- A whole pass, whatever comes of it. -/
theorem pass (h : Laid fs₀ b K done w.fs) (hunmade : Unmade fs₀ stage.root b K)
    (hparted : (done ++ rest).Pairwise fun p q => Parted p.names q.names)
    (hrun : (rest.foldlM stage.copyDirectoryTree t).run w = (r, w')) :
    Laid fs₀ b K (done ++ rest) w'.fs := by
  induction rest generalizing done w t with
  | nil =>
      cases hrun
      rwa [List.append_nil]
  | cons p rest ih =>
      have hp := parted_of_pairwise hparted
      have hassoc : done ++ p :: rest = done ++ [p] ++ rest := by simp
      rw [List.foldlM_cons] at hrun
      rw [hassoc] at hparted ⊢
      rcases run_bind_cases hrun with ⟨e, hfail, -⟩ | ⟨t₁, w₁, hone, hrun⟩
      · obtain ⟨hwell, hadds⟩ := h.step hunmade hp hfail
        exact ⟨hwell, hadds.mono fun _ _ hnew => hnew.mono fun q hq => List.mem_append_left rest hq⟩
      · exact ih (h.step hunmade hp hone) hparted hrun

end Laid

/-! ## A pass that can make nothing -/

/-- Nothing can be made of any copy's path. -/
def Barren (fs : FileSystem) (stage : Stage) : Prop :=
  ∀ p result fs₁, fs.makeDirectories (stage.copyPath p) = (result, fs₁) → fs₁ = fs

theorem Barren.copyDirectory_ne_ok (h : Barren w.fs stage) (hbytes : stage.root.bytes ≠ [])
    (hroot : ¬ w.fs.isDirectory stage.root) :
    (copyDirectory source (stage.copyPath p)).run w ≠ (.ok (), w') := by
  intro hcopy
  obtain ⟨made, -, hmake, -⟩ := copyDirectory_eq_ok hcopy
  obtain rfl := h p _ _ hmake
  have hdir := isDirectory_makeDirectories (copyPath_ne_nil hbytes p) hmake
  exact hroot (isDirectory_root hbytes hdir)

theorem fs_eq_of_copyDirectoryTree (hbytes : stage.root.bytes ≠ [])
    (hroot : ¬ fs.isDirectory stage.root) (hbarren : Barren fs stage) (t : Tally) (p : Path) :
    Maintains (fun s : Scene => s.fs = fs) (stage.copyDirectoryTree t p) := by
  intro w w' r hfs hrun
  obtain ⟨r', w₁, w₂, hfs₁, htree, hfs₂⟩ := run_copyDirectoryTree_cases hrun
  rw [hfs] at hfs₁
  rw [hfs₂]
  rcases run_copyTree_cases (endsWithSlash_copyPath hbytes p) htree with
    hsame | ⟨-, -, -, ⟨e, hfail⟩ | ⟨w₃, t₁, hcopy, -⟩⟩
  · rw [hsame, hfs₁]
  · obtain ⟨result, hmake⟩ := copyDirectory_eq_error hfail
    exact hbarren p result _ (hfs₁ ▸ hmake)
  · subst hfs₁
    exact absurd hcopy (hbarren.copyDirectory_ne_ok hbytes hroot)

theorem fs_eq_of_foldlM (hbytes : stage.root.bytes ≠ []) (hroot : ¬ fs.isDirectory stage.root)
    (hbarren : Barren fs stage) (hfs : w.fs = fs)
    (hrun : (ps.foldlM stage.copyDirectoryTree t).run w = (r, w')) : w'.fs = fs :=
  Maintains.foldlM (fs_eq_of_copyDirectoryTree hbytes hroot hbarren) ps t hfs hrun

/-- Below a jail that is there, a staging root that is missing can be made of
nothing, or there is a directory that it is to be made from. -/
theorem barren_or_unmade {mode : Mode} {es : Entries}
    (hjail : fs.find true stage.jailRoot = .ok (l, .directory mode es))
    (hroot : ¬ fs.isDirectory stage.root) :
    stage.root.bytes ≠ [] ∧ (Barren fs stage ∨ ∃ b K,
      fs.reach? stage.jailRoot stage.staging.names = some b ∧ Unmade fs stage.root b K) := by
  have hne : stage.staging.names ≠ [] := by
    intro hnil
    apply hroot
    rw [Stage.root, Path.reroot, hnil]
    exact isDirectory_iff.mpr ⟨l, mode, es, hjail⟩
  refine ⟨Path.bytes_ne_nil_of_words (words_reroot_ne_nil stage.jailRoot hne), ?_⟩
  by_cases hbarren : Barren fs stage
  · exact Or.inl hbarren
  · simp only [Barren, not_forall] at hbarren
    obtain ⟨p, result, fs₁, hmake, hchanged⟩ := hbarren
    exact Or.inr (exists_unmade hjail hne hroot hmake hchanged)

/-- A pass changes files only by copying, and only where the staging root is no
directory. -/
theorem run_copyAll_cases {r : Except Failure StagingReport}
    (h : (stage.copyAll ps).run w = (r, w')) : w'.fs = w.fs ∨ (¬ w.fs.isDirectory stage.root ∧
      ∃ r' w₁, (ps.foldlM stage.copyDirectoryTree {}).run w = (r', w₁) ∧ w'.fs = w₁.fs) := by
  unfold copyAll at h
  rw [run_bind_of_ok (run_get w)] at h
  split at h
  · cases h
    exact Or.inl rfl
  · rename_i hroot
    refine Or.inr ⟨hroot, ?_⟩
    rcases run_bind_cases h with ⟨e, hfold, -⟩ | ⟨t, w₁, hfold, h⟩
    · exact ⟨_, w', hfold, rfl⟩
    · cases h
      exact ⟨_, w₁, hfold, rfl⟩

/-! ## The whole pass -/

/-- A place at or below an entry that the directory `b` does not have. -/
def Beyond (fs : FileSystem) (b l : Location) : Prop :=
  ∃ key, fs.tree.look (b ++ [key]) = none ∧ b ++ [key] <+: l

theorem beyond_of_copies {face : Face} (hunmade : Unmade fs stage.root b K)
    (h : Copies b K ps l face) (hl : fs.tree.look l = none) : Beyond fs b l := by
  obtain ⟨first, more, rfl, hfree⟩ := hunmade.free
  obtain ⟨mode, hmode⟩ := hunmade.directory
  refine ⟨first, hfree, ?_⟩
  obtain ⟨q, -, ⟨before, hbefore, -, rfl, -⟩ | hbelow⟩ := h
  · rcases List.prefix_cons_iff.mp hbefore with rfl | ⟨beyond, rfl, -⟩
    · rw [List.append_nil, hmode] at hl
      cases hl
    · exact (List.prefix_append_right_inj b).mpr (List.cons_prefix_cons.mpr ⟨rfl, List.nil_prefix⟩)
  · refine List.IsPrefix.trans ?_ hbelow
    exact (List.prefix_append_right_inj b).mpr (List.cons_prefix_cons.mpr ⟨rfl, List.nil_prefix⟩)

/-- All that a pass makes, whatever its result, stands beyond the last place on
the way to the staging root. -/
theorem exists_adds_beyond {mode : Mode} {es : Entries} (hwell : fs.tree.WellFormed)
    (hjail : fs.find true stage.jailRoot = .ok (l, .directory mode es))
    (hparted : ps.Pairwise fun p q => Parted p.names q.names) :
    ∃ b, fs.reach? stage.jailRoot stage.staging.names = some b ∧
      Adds (fun l _ => Beyond fs b l) fs (stage.run fs ps).2.fs := by
  have hlocate : fs.locate stage.jailRoot = .ok l := locate_eq_ok_iff.mpr ⟨_, hjail⟩
  obtain ⟨last, hlast⟩ := exists_reach?_eq_some hlocate stage.staging.names
  obtain ⟨r, w', hrun⟩ : ∃ r w', (stage.copyAll ps).run ⟨fs, []⟩ = (r, w') := ⟨_, _, rfl⟩
  rw [run, hrun]
  rcases run_copyAll_cases hrun with hsame | ⟨hroot, r', w₁, hfold, hfs⟩
  · exact ⟨last, hlast, hsame ▸ .refl _ _⟩
  rw [hfs]
  -- Where the root cannot be made, nothing is; where it can, the pass stays below what was missing
  -- of it.
  obtain ⟨hbytes, hbarren | ⟨b, K, hreach, hunmade⟩⟩ := barren_or_unmade hjail hroot
  · rw [fs_eq_of_foldlM hbytes hroot hbarren rfl hfold]
    exact ⟨last, hlast, .refl _ _⟩
  · have hlaid : Laid fs b K [] fs := ⟨hwell, .refl _ _⟩
    rw [← List.nil_append ps] at hparted
    have hadds := (hlaid.pass hunmade hparted hfold).adds
    exact ⟨b, hreach, hadds.toKeeps, fun l face hnone hsome =>
      beyond_of_copies hunmade (hadds.added l face hnone hsome) hnone⟩

/-- What stands beyond `b` keeps to a directory if and only if `b` does. -/
theorem inside_iff {fs' : FileSystem} {r : Location}
    (hadds : Adds (fun l _ => Beyond fs b l) fs fs') (hr : (fs.tree.look r).isSome) :
    (∀ l, ¬ r <+: l → fs'.tree.look l = fs.tree.look l) ↔
      r <+: b ∨ ∀ l, fs'.tree.look l = fs.tree.look l := by
  constructor
  · intro hinside
    by_cases hsame : ∀ l, fs'.tree.look l = fs.tree.look l
    · exact Or.inr hsame
    · obtain ⟨l, hl⟩ := not_forall.mp hsame
      have hrl : r <+: l := not_not.mp fun hout => hl (hinside l hout)
      obtain ⟨key, hkey, hbelow⟩ : Beyond fs b l := by
        by_contra hbeyond
        exact hl (hadds.look_eq fun _ => hbeyond)
      -- The first thing made was missing, and `r` was there: so `r` is not at or below it.
      have hmissing : ∀ m, b ++ [key] <+: m → m ≠ r := by
        rintro m hm rfl
        rw [look_eq_none_below hkey hm] at hr
        cases hr
      rcases List.prefix_or_prefix_of_prefix hrl hbelow with habove | hunder
      · rcases List.prefix_concat_iff.mp habove with heq | hrb
        · exact absurd heq.symm (hmissing _ (List.prefix_refl _))
        · exact Or.inl hrb
      · exact absurd rfl (hmissing r hunder)
  · rintro (hrb | hsame) l hout
    · refine hadds.look_eq fun _ hbeyond => hout ?_
      obtain ⟨key, -, hbelow⟩ := hbeyond
      exact (hrb.trans (List.prefix_append b [key])).trans hbelow
    · exact hsame l

/-- A pass over paths whose places lie apart, whatever its result, changes
nothing that was there, and all it makes stands beyond the last place `b` that
the way to the staging root leads to, with links followed.  So it keeps to the
jail's root `r` if and only if `b` is inside, or nothing is made. -/
theorem run_inside_iff (hwell : fs.tree.WellFormed)
    (hroot : validateRoot fs root = .ok stage.jailRoot)
    (hparted : ps.Pairwise fun p q => Parted p.names q.names) :
    ∃ r b, fs.locate stage.jailRoot = .ok r ∧
      fs.reach? stage.jailRoot stage.staging.names = some b ∧
      let after := (stage.run fs ps).2.fs
      Adds (fun l _ => Beyond fs b l) fs after ∧
        ((∀ l, ¬ r <+: l → after.tree.look l = fs.tree.look l) ↔
          r <+: b ∨ ∀ l, after.tree.look l = fs.tree.look l) := by
  obtain ⟨r, mode, es, hjail⟩ := isDirectory_iff.mp (validateRoot_eq_ok_iff.mp hroot).2
  obtain ⟨b, hreach, hadds⟩ := exists_adds_beyond hwell hjail hparted
  have hr : (fs.tree.look r).isSome := by
    rw [Node.look, at?_of_find hjail]
    rfl
  exact ⟨r, b, locate_eq_ok_iff.mpr ⟨_, hjail⟩, hreach, hadds, inside_iff hadds hr⟩

end Stage

/-- Files, as a superuser sees them, of a host whose jail has a link that stays
inside and one that does not. -/
def linkedHost : FileSystem where
  superuser := true
  tree := .directory 0o755 [
    (Utf8.encode "lib", .directory 0o755 [(Utf8.encode "x", .file 0o644 [])]),
    (Utf8.encode "a", .directory 0o755 [(Utf8.encode "h", .file 0o644 [0])]),
    (Utf8.encode "b", .directory 0o755 [
      (Utf8.encode "a", .directory 0o755 [(Utf8.encode "h", .link "/out/h")])]),
    (Utf8.encode "out", .directory 0o755 []),
    (Utf8.encode "jail", .directory 0o755 [
      (Utf8.encode "data", .directory 0o755 []),
      (Utf8.encode "var", .link "data"),
      (Utf8.encode "away", .link "/out")])]

theorem validateRoot_linkedHost : validateRoot linkedHost "/jail" = .ok "/jail" :=
  validateRoot_eq_ok_iff.mpr (by decide +kernel)

/-- Behind a link that stays inside the jail a pass stays inside too. -/
theorem run_inside_linkedHost :
    let stage : Stage := ⟨"/jail", "/var/stage"⟩
    let jail := Utf8.encode "jail"
    let after := (stage.run linkedHost ["/lib"]).2.fs
    linkedHost.tree.WellFormed ∧ validateRoot linkedHost "/jail" = .ok stage.jailRoot ∧
      linkedHost.locate stage.jailRoot = .ok [jail] ∧
      (∀ l, ¬ [jail] <+: l → after.tree.look l = linkedHost.tree.look l) ∧
      after.tree.look [jail, Utf8.encode "data", Utf8.encode "stage", Utf8.encode "lib",
        Utf8.encode "x"] = some (.file 0o644 []) := by
  intro stage jail after
  have hwell : linkedHost.tree.WellFormed := by decide +kernel
  have hjail : linkedHost.locate stage.jailRoot = .ok [jail] := by decide +kernel
  have hlast : linkedHost.reach? stage.jailRoot stage.staging.names =
      some [jail, Utf8.encode "data"] := by
    decide +kernel
  have hroot : validateRoot linkedHost "/jail" = .ok stage.jailRoot := validateRoot_linkedHost
  have hparted : [Path.ofString "/lib"].Pairwise fun p q => Stage.Parted p.names q.names :=
    List.pairwise_singleton _ _
  obtain ⟨r, b, hr, hb, -, hiff⟩ := Stage.run_inside_iff hwell hroot hparted
  rw [hjail] at hr
  rw [hlast] at hb
  obtain rfl := Except.ok.inj hr
  obtain rfl := Option.some.inj hb
  exact ⟨hwell, hroot, hjail, hiff.mpr (Or.inl (by decide +kernel)), by decide +kernel⟩

/-- Behind a link that leads out of the jail a pass makes directories outside.
In a jail without links it does so when a link that it copied is in the way of
another copy. -/
theorem run_leaves_jail :
    let away : Stage := ⟨"/jail", "/away/stage"⟩
    let twice : Stage := ⟨"/jail/data", "/stage"⟩
    let out := Utf8.encode "out"
    linkedHost.tree.WellFormed ∧ validateRoot linkedHost "/jail" = .ok away.jailRoot ∧
      validateRoot linkedHost "/jail/data" = .ok twice.jailRoot ∧
      linkedHost.tree.look [out, Utf8.encode "stage"] = none ∧
      (away.run linkedHost ["/lib"]).2.fs.tree.look [out, Utf8.encode "stage"] =
        some (.directory 0o755) ∧
      linkedHost.tree.look [out, Utf8.encode "h"] = none ∧
      (twice.run linkedHost ["/b/a", "/b/../a"]).2.fs.tree.look [out, Utf8.encode "h"] =
        some (.file 0o644 [0]) := by
  intro away twice out
  have hdata : validateRoot linkedHost "/jail/data" = .ok twice.jailRoot :=
    validateRoot_eq_ok_iff.mpr (by decide +kernel)
  exact ⟨by decide +kernel, validateRoot_linkedHost, hdata, by decide +kernel, by decide +kernel,
    by decide +kernel, by decide +kernel⟩

end Confinement
