import Confinement.Proofs.FileSystem.FileName
import Confinement.Proofs.Lookup.Shadow
import Confinement.Proofs.SearchList.Apart
import Confinement.Proofs.Staging.Pass

/-!
# Lookups inside the jail

A library that lies in a search directory on the host is found inside the
jail.  The directory is staged with its files (`Staged.pass`), the staged copy
is among the candidates of the child, and of the candidates that are equal to
it one is searched (`exists_mem_distinctDirectories`).

That holds for the directories that are kept.  What lies below one of them is
copied with it, but no candidate leads there, so an entry that the selection
drops is lost to the child.
-/

namespace Confinement

open FileSystem
open Node (IsEntryName)
open Stage (Scene)

/-- The files as a process sees them that has made a directory its root and
stands in it. -/
def FileSystem.confined (fs : FileSystem) (root : Location) : FileSystem :=
  { fs with root, cwd := root }

/-! ## Candidates -/

/-- The entry of a search list that may be staged and is not dropped for a
directory above it is kept in some spelling. -/
theorem SearchList.exists_same_of_select {fs : FileSystem} {entries : List Path} {cwd e : Path}
    (he : e ∈ entries) (heligible : isEligible fs cwd e)
    (hkept : ∀ p ∈ select fs entries cwd, e.isBelow p → p.isBelow e) :
    ∃ p ∈ select fs entries cwd, p.Same e := by
  obtain ⟨p, hp, hbelow⟩ := exists_isBelow_foldl_consider (mem_byLength.mpr he) heligible
  exact ⟨p, hp, Path.same_iff_isBelow.mpr ⟨hkept p hp hbelow, hbelow⟩⟩

theorem SearchList.isEligible_of_isDirectory {fs : FileSystem} {cwd e : Path}
    (hcwd : cwd.Same .root ∨ ¬ e.isBelow cwd) (hdir : fs.isDirectory e) : isEligible fs cwd e := by
  have hne : e.isEmpty = false := by
    obtain ⟨l, mode, es, hfind⟩ := isDirectory_iff.mp hdir
    simpa [Path.isEmpty] using (find_true_eq_ok_iff.mp hfind).1.ne_nil
  unfold isEligible excludes
  rcases hcwd with hroot | hout
  · simp [hne, hdir, hroot]
  · simp [hne, hdir, hout]

section

variable {fs : FileSystem} {paths : List Path} {p : Path}

theorem findLibrary_isSome {name : String} (hname : '/' ∉ name.toList) (hp : p ∈ paths)
    (hfile : fs.isFile (p.join (.ofString name))) : (findLibrary fs name paths).isSome := by
  have hplain : name.toList.contains '/' = false := by simpa using hname
  unfold findLibrary
  rw [if_neg (by rw [hplain]; exact Bool.false_ne_true), List.find?_isSome]
  exact ⟨_, List.mem_map.mpr ⟨p, hp, rfl⟩, hfile⟩

end

/-! ## What a pass leaves -/

theorem Stage.exists_makeDirectories_of_foldlM {stage : Stage} {ps : List Path} {t t' : Tally}
    {w w' : Scene} (hroot : stage.root.bytes ≠ []) (hne : ps ≠ [])
    (hdirs : ∀ p ∈ ps, w.fs.isDirectory p)
    (hok : (ps.foldlM stage.copyDirectoryTree t).run w = (.ok t', w')) :
    ∃ p fs₁, w.fs.makeDirectories (stage.copyPath p) = (.ok (), fs₁) := by
  obtain ⟨p, ps, rfl⟩ := List.exists_cons_of_ne_nil hne
  rw [List.foldlM_cons] at hok
  obtain ⟨t₁, w₁, hone, -⟩ := run_bind_eq_ok.mp hok
  obtain ⟨w₂, hnote, htree⟩ := run_copyDirectoryTree_eq_ok.mp hone
  have hdir := hdirs p List.mem_cons_self
  rw [← run_note_eq_ok hnote] at hdir ⊢
  obtain ⟨-, w₃, t₃, hcopy, -⟩ := run_copyTree_eq_ok (endsWithSlash_copyPath hroot p) hdir htree
  obtain ⟨fs₁, -, hmake, -⟩ := copyDirectory_eq_ok hcopy
  exact ⟨p, fs₁, hmake⟩

/-- A pass over directories whose places are parted that is not skipped has a
site, and all of them are staged in the end. -/
theorem Stage.exists_staged_of_run {fs : FileSystem} {stage : Stage} {ps : List Path} {w : Scene}
    {report : StagingReport} {r : Location} {mode : Mode} {es : Entries}
    (hwell : fs.tree.WellFormed) (hjail : fs.find true stage.jailRoot = .ok (r, .directory mode es))
    (hdirs : ∀ p ∈ ps, fs.isDirectory p) (hne : ps ≠ [])
    (hparted : ps.Pairwise fun p q => Parted p.names q.names)
    (hrun : stage.run fs ps = (.ok report, w)) (hskipped : report.skipped = false) :
    stage.staging.names ≠ [] ∧ stage.root.Fits ∧ ∃ b K, Site fs stage.root b K ∧
      fs.tree.look (b ++ K) = none ∧ Staged fs stage b K ps w.fs := by
  obtain ⟨hroot, t, w₁, hfold, hfs⟩ := run_copyAll_eq_ok hrun hskipped
  -- With an empty prefix the jail itself is the staging root, and the pass would be skipped.
  have hnames : stage.staging.names ≠ [] := by
    intro hnil
    refine hroot (isDirectory_iff.mpr ⟨r, mode, es, ?_⟩)
    rwa [Stage.root, Path.reroot, hnil]
  have hbytes : stage.root.bytes ≠ [] :=
    Path.bytes_ne_nil_of_words (words_reroot_ne_nil stage.jailRoot hnames)
  obtain ⟨q, fs₁, hmake⟩ := exists_makeDirectories_of_foldlM hbytes hne hdirs hfold
  obtain ⟨b, K, hK, hsite, hfree⟩ := exists_site hjail hnames hroot hmake
  have hstaged := (staged_nil hwell).pass hsite hfree hdirs (by rwa [List.nil_append])
    (fun q _ => List.append_ne_nil_of_left_ne_nil hK _) hfold
  rw [List.nil_append, ← hfs] at hstaged
  obtain ⟨rest, hrest⟩ := exists_copyPath_bytes_eq stage q
  have hfits := fits_of_makeDirectories (copyPath_ne_nil hbytes q) hmake
  exact ⟨hnames, hfits.of_bytes_eq hbytes hrest, b, K, hsite, hfree, hstaged⟩

/-! ## Lookups -/

section

variable {fs : FileSystem} {entries : List Path} {cwd e : Path} {stage : Stage} {w : Scene}
  {report : StagingReport} {r : Location} {mode m : Mode} {es : Entries} {c : Bytes} {name : String}

theorem start_confined (p : Path) : (fs.confined r).start p = r := by
  unfold FileSystem.start FileSystem.confined
  split <;> rfl

/-- A file of a directory that was copied is in the copy. -/
theorem Stage.Copied.exists_file {fs₀ : FileSystem} {place d : Location} {p : Path} {f : Bytes}
    {n : Nat} (h : Stage.Copied fs₀ fs stage place p) (hkeeps : Keeps fs₀ fs) (hsame : p.Same e)
    (hwalk : fs₀.Walk n (fs₀.start e) e.words d) (hs : fs₀.Searchable d)
    (hat : fs₀.tree.at? (d ++ [f]) = some (.file m c)) :
    fs.Searchable place ∧ ∃ m' c', fs.tree.look (place ++ [f]) = some (.file m' c') := by
  obtain ⟨l, mode, es, hfind, hplace, hfiles⟩ := h.source
  obtain ⟨-, ⟨k, -, hp⟩, hl, -⟩ := find_true_eq_ok_iff.mp hfind
  obtain ⟨-, rfl⟩ := Walk.unique_of_same hsame hp hwalk
  obtain ⟨mode', hmode', hpermits⟩ := hs
  rw [Node.look_eq_directory_iff.mpr ⟨es, hl⟩] at hmode'
  obtain rfl := Face.directory.inj (Option.some.inj hmode')
  refine ⟨⟨mode, hplace, by rw [hkeeps.permits_eq]; exact hpermits⟩, hfiles f m c ?_⟩
  rw [Node.lookup_of_at? hl, hat]

theorem leads_of_staging {staging p : Path} {s : Location} {names : List Bytes}
    (hstaging : fs.Leads staging s) (hstart : fs.start p = fs.start staging)
    (hturns : p.turns = staging.turns ++ names)
    (hnames : ∀ name ∈ names, Path.IsName name ∧ name.length ≤ nameLimit)
    (hsearch : ∀ before, before <+: names → fs.Searchable (s ++ before)) :
    fs.Leads p (s ++ names) := by
  obtain ⟨n, hn, hwalk⟩ := hstaging
  have hend := hsearch names (List.prefix_refl names)
  obtain ⟨mode, hlook, -⟩ := id hend
  have hdown : fs.Walk 0 s names (s ++ names) :=
    walk_straight hnames (fun before hbefore _ => hsearch before hbefore) hlook
      fun target => Face.noConfusion
  have hturnsWalk := (hwalk.unpad (pads_filter staging.words)).append hdown
  refine ⟨n, hn, ?_⟩
  rw [hstart]
  exact hturnsWalk.pad hend (hturns ▸ pads_filter p.words)

/-- Where the staging prefix names the staging root from inside the jail, all
that takes its turns and then those of a directory leads to the copy. -/
theorem Stage.Staged.leads_confined {fs₀ : FileSystem} {b : Location} {K : List Bytes}
    {done : List Path} {p : Path} (h : Stage.Staged fs₀ stage b K done fs)
    (hsite : Stage.Site fs₀ stage.root b K) (hfree : fs₀.tree.look (b ++ K) = none)
    (hparted : done.Pairwise fun p q => Stage.Parted p.names q.names) (hp : p ∈ done)
    (hplace : fs.Searchable (b ++ (K ++ p.names))) (hfits : stage.root.Fits)
    (hnames : ∀ key ∈ p.names, IsEntryName key)
    (hstaging : (fs.confined r).locate stage.staging = fs.locate stage.root) :
    stage.staging.Fits ∧ ∀ d : Path, d.turns = stage.staging.turns ++ p.names →
      (fs.confined r).Leads d (b ++ (K ++ p.names)) := by
  obtain ⟨hleads, hdown⟩ := h.straight hsite hfree hparted hp
  -- The way to the place can be searched, and its end as well.
  have hway : ∀ before, before <+: K ++ p.names → fs.Searchable (b ++ before) := by
    intro before hbefore
    by_cases hwhole : before = K ++ p.names
    · exact hwhole ▸ hplace
    · exact hdown before hbefore hwhole
  have hend := hway K (List.prefix_append K p.names)
  have ⟨mode, hmode, _⟩ := hend
  obtain ⟨es, hat⟩ := Node.look_eq_directory_iff.mp hmode
  obtain ⟨node, hfind⟩ := locate_eq_ok_iff.mp (hstaging.trans (locate_eq_ok_iff.mpr
    ⟨_, find_true_eq_ok_iff.mpr ⟨hfits, hleads, hat, fun _ => hend⟩⟩))
  obtain ⟨hfitsStaging, hleadsStaging, -⟩ := find_true_eq_ok_iff.mp hfind
  refine ⟨hfitsStaging, fun d hd => ?_⟩
  rw [← List.append_assoc]
  refine leads_of_staging hleadsStaging (by rw [start_confined, start_confined]) hd
    (fun key hkey => ⟨(hnames key hkey).toIsName, (hnames key hkey).length_le⟩)
    fun before hbefore => ?_
  rw [List.append_assoc]
  exact hway (K ++ before) ((List.prefix_append_right_inj K).mpr hbefore)

/-- A file is found where all paths equal to some candidate lead to its
directory and are short enough. -/
theorem findLibrary_distinctDirectories_isSome {paths : List Path} {q : Path} {place : Location}
    (hname : '/' ∉ name.toList) (hf : IsEntryName (Utf8.encode name)) (hq : q ∈ paths)
    (hne : q.turns ≠ []) (hnul : ∀ turn ∈ q.turns, 0 ∉ turn)
    (hleads : ∀ d : Path, q.Same d → fs.Leads d place) (hplace : fs.Searchable place)
    (hfile : fs.tree.look (place ++ [Utf8.encode name]) = some (.file m c))
    (hshort : ∀ d ∈ paths, d.Same q → (d.join (.ofString name)).length < pathLimit) :
    (findLibrary fs name (distinctDirectories fs paths)).isSome := by
  have hseen : fs.isDirectory q := by
    have ⟨mode, hmode, _⟩ := hplace
    have hlonger := Path.length_join_le q hf.not_isAbsolute
    have hlength : q.length < pathLimit :=
      Nat.lt_of_le_of_lt (Nat.le_trans (Nat.le_add_right _ _) hlonger) (hshort q hq rfl)
    have hfits := Path.fits_of_turns hne hnul hlength
    exact isDirectory_of_leads hfits (hleads q rfl) hmode fun _ => hplace
  -- Of the paths equal to the candidate some one is searched, and it need not be the candidate.
  obtain ⟨d, hd, hsame⟩ := exists_mem_distinctDirectories hq hseen
  have hturns : (d.child (Utf8.encode name)).turns = q.turns ++ [Utf8.encode name] := by
    rw [Path.turns_child d hf.toIsName, hsame.turns_eq]
  have hfits : (d.child (Utf8.encode name)).Fits := by
    refine Path.fits_of_turns (by rw [hturns]; simp) (fun turn hturn => ?_)
      (hshort d (mem_of_mem_distinctDirectories hd).1 (Eq.symm hsame))
    rw [hturns] at hturn
    rcases List.mem_append.mp hturn with hturn | hturn
    · exact hnul turn hturn
    · exact List.mem_singleton.mp hturn ▸ hf.nul_notMem
  exact findLibrary_isSome hname hd ((hleads d hsame).isFile_child hf hplace hfile hfits)

/-- A file in a search directory that is kept is found inside the jail. -/
theorem findLibrary_remap_isSome (moduleDirectory : Option Path) (hwell : fs.tree.WellFormed)
    (hjail : fs.isDirectory stage.jailRoot) (hcwd : cwd.Same .root ∨ ∀ p ∈ entries, ¬ p.isBelow cwd)
    (hrun : stage.run fs (SearchList.select fs entries cwd) = (.ok report, w))
    (hskipped : report.skipped = false)
    (hparted : (SearchList.select fs entries cwd).Pairwise fun p q => Stage.Parted p.names q.names)
    (hstaging : (w.fs.confined r).locate stage.staging = w.fs.locate stage.root)
    (hname : '/' ∉ name.toList) (he : e ∈ entries) (hdir : fs.isDirectory e)
    (hfile : (fs.lstat (e.join (.ofString name))).map Node.isFile = .ok true)
    (hkept : ∀ p ∈ SearchList.select fs entries cwd, e.isBelow p → p.isBelow e)
    (hshort : ∀ p ∈ candidates entries moduleDirectory (SearchList.select fs entries cwd)
      stage.staging,
      p.Same (stagedPath stage.staging e) → (p.join (.ofString name)).length < pathLimit) :
    (findLibrary (w.fs.confined r) name (remap (w.fs.confined r) entries moduleDirectory
      (SearchList.select fs entries cwd) stage.staging)).isSome := by
  have heligible := SearchList.isEligible_of_isDirectory (hcwd.imp_right fun h => h e he) hdir
  obtain ⟨p, hp, hpe⟩ := SearchList.exists_same_of_select he heligible hkept
  have hdirs : ∀ q ∈ SearchList.select fs entries cwd, fs.isDirectory q :=
    fun q hq => SearchList.isDirectory_of_mem_select hq
  obtain ⟨jail, mode, es, hroot⟩ := isDirectory_iff.mp hjail
  obtain ⟨hne, hrootFits, b, K, hsite, hfree, hstaged⟩ :=
    Stage.exists_staged_of_run hwell hroot hdirs (List.ne_nil_of_mem hp) hparted hrun hskipped
  obtain ⟨l, mode', es', hfind⟩ := isDirectory_iff.mp (hdirs p hp)
  have hnames : ∀ key ∈ p.names, IsEntryName key :=
    fun key hkey => isEntryName_of_mem_names hfind hkey
  -- The file is in the staged copy.
  obtain ⟨hf, n, d, m, c, hwalk, hs, hat⟩ :=
    exists_entry_of_lstat (Utf8.slash_notMem_encode hname) hfile
  obtain ⟨hplace, m', c', hcopy⟩ :=
    (hstaged.copied p hp).exists_file hstaged.adds.toKeeps hpe hwalk hs hat
  -- All candidates that are equal to the staged path lead to the copy.
  obtain ⟨hfits, hleads⟩ :=
    hstaged.leads_confined hsite hfree hparted hp hplace hrootFits hnames hstaging
  have hstagedPath : stagedPath stage.staging p = stagedPath stage.staging e := by
    have hcomponents : p.components = e.components := hpe
    rw [stagedPath, stagedPath, Path.reroot, Path.reroot, Path.names, Path.names, hcomponents]
  have hturns : (stagedPath stage.staging e).turns = stage.staging.turns ++ p.names := by
    rw [← hstagedPath, stagedPath, Path.turns_reroot]
  have hmem : stagedPath stage.staging e ∈
      candidates entries moduleDirectory (SearchList.select fs entries cwd) stage.staging := by
    rw [← hstagedPath]
    exact List.mem_append_right _ (List.mem_map_of_mem hp)
  refine findLibrary_distinctDirectories_isSome hname hf hmem ?_ ?_ ?_ hplace hcopy hshort
  · rw [hturns]
    refine List.append_ne_nil_of_left_ne_nil (fun hnil => hne ?_) _
    rw [Path.names_eq, hnil]
    rfl
  · intro turn hturn
    rw [hturns] at hturn
    rcases List.mem_append.mp hturn with hturn | hturn
    · exact hfits.nul_notMem_turns hturn
    · exact (hnames turn hturn).nul_notMem
  · intro d hd
    exact hleads d (by rw [← hd.turns_eq, hturns])

end

/-- Files on a host with an empty directory for a jail. -/
def sampleHost : FileSystem where
  tree := .directory 0o755 [
    (Utf8.encode "opt", .directory 0o755 [(Utf8.encode "lib", .directory 0o755 [
      (Utf8.encode "f", .file 0o644 []),
      (Utf8.encode "nested", .directory 0o755 [(Utf8.encode "g", .file 0o644 [])])])]),
    (Utf8.encode "x", .directory 0o755 [(Utf8.encode "a", .directory 0o755 [
      (Utf8.encode "h", .link "/out/h")])]),
    (Utf8.encode "a", .directory 0o755 [(Utf8.encode "h", .file 0o644 [])]),
    (Utf8.encode "out", .directory 0o755 []),
    (Utf8.encode "jail", .directory 0o755 [(Utf8.encode "away", .link "/out")])]

/-- Of four entries two are kept: one is another spelling and one is nested.
The files of both are found in a jail that was empty. -/
theorem findLibrary_remap_isSome_sampleHost :
    let stage : Stage := ⟨"/jail", "/stage"⟩
    let entries := [Path.ofString "/a", "/opt/lib", "//opt/lib", "/opt/lib/nested"]
    let distinct := SearchList.select sampleHost entries .root
    distinct = [Path.ofString "/a", "/opt/lib"] ∧
      ∃ report w, stage.run sampleHost distinct = (.ok report, w) ∧ report.skipped = false ∧
        ∀ name ∈ ["f", "h"], (findLibrary (w.fs.confined [Utf8.encode "jail"]) name
          (remap (w.fs.confined [Utf8.encode "jail"]) entries (some "/opt/lib/nested") distinct
            stage.staging)).isSome := by
  intro stage entries distinct
  have hdistinct : distinct = [Path.ofString "/a", "/opt/lib"] := by
    simp only [distinct, SearchList.select]
    rw [SearchList.byLength_of_pairwise (by decide +kernel)]
    decide +kernel
  have hrun : (stage.run sampleHost distinct).1 =
      .ok ⟨"/jail/stage", false, { directories := 3, files := 3 }⟩ := by
    rw [hdistinct]
    decide +kernel
  refine ⟨hdistinct, _, (stage.run sampleHost distinct).2, Prod.ext hrun rfl, rfl, ?_⟩
  have hparted : distinct.Pairwise fun p q => Stage.Parted p.names q.names := by
    rw [hdistinct]
    decide +kernel
  have hstaging : ((stage.run sampleHost distinct).2.fs.confined [Utf8.encode "jail"]).locate
      stage.staging = (stage.run sampleHost distinct).2.fs.locate stage.root := by
    rw [hdistinct]
    decide +kernel
  have hentries : ∀ name ∈ ["f", "h"], '/' ∉ name.toList ∧ ∃ e ∈ entries,
      sampleHost.isDirectory e ∧
      (sampleHost.lstat (e.join (.ofString name))).map Node.isFile = .ok true ∧
      (∀ p ∈ distinct, e.isBelow p → p.isBelow e) ∧
      ∀ p ∈ candidates entries (some "/opt/lib/nested") distinct stage.staging,
        p.Same (stagedPath stage.staging e) → (p.join (.ofString name)).length < pathLimit := by
    rw [hdistinct]
    decide +kernel
  intro name hname
  obtain ⟨hslash, e, he, hdir, hfile, hkept, hshort⟩ := hentries name hname
  exact findLibrary_remap_isSome (some "/opt/lib/nested") (by decide +kernel) (by decide +kernel)
    (Or.inl rfl) (Prod.ext hrun rfl) rfl hparted hstaging hslash he hdir hfile hkept hshort

/-- Whether a lookup succeeds on the host, and inside the jail once the search
entries are staged. -/
def lookups (fs : FileSystem) (r : Location) (stage : Stage) (entries : List Path) (name : String) :
    Option (Bool × Bool) :=
  let distinct := SearchList.select fs entries .root
  match stage.run fs distinct with
  | (.ok ⟨_, false, _⟩, w) =>
    let jail := w.fs.confined r
    some ((findLibrary fs name entries).isSome,
      (findLibrary jail name (remap jail entries none distinct stage.staging)).isSome)
  | _ => none

/-- A lookup is lost inside the jail for an entry nested in one that is kept,
for a prefix that means another place there, because of a `..` or of a link,
for two directories staged in one place, and for an equal candidate spelled so
long that no file can be named in it. -/
theorem lookups_lost :
    let r := [Utf8.encode "jail"]
    let long : Path := ⟨List.replicate 4081 Path.slash ++ Utf8.encode "stage/opt/lib"⟩
    lookups sampleHost r ⟨"/jail", "/stage"⟩ ["/opt/lib", "/opt/lib/nested"] "g" =
      some (true, false) ∧
      lookups sampleHost r ⟨"/jail", "/up/../stage"⟩ ["/opt/lib"] "f" = some (true, false) ∧
      lookups sampleHost r ⟨"/jail", "/away/stage"⟩ ["/opt/lib"] "f" = some (true, false) ∧
      lookups sampleHost r ⟨"/jail", "/stage"⟩ ["/x/a", "/x/../a"] "h" = some (true, false) ∧
      lookups sampleHost r ⟨"/jail", "/stage"⟩ ["/opt/lib", long] "f" = some (true, false) := by
  intro r long
  unfold lookups SearchList.select
  refine ⟨?_, ?_, ?_, ?_, ?_⟩
  · rw [SearchList.byLength_of_pairwise (by decide +kernel)]
    decide +kernel
  · rw [SearchList.byLength_of_pairwise (by decide +kernel)]
    decide +kernel
  · rw [SearchList.byLength_of_pairwise (by decide +kernel)]
    decide +kernel
  · rw [SearchList.byLength_of_pairwise (by decide +kernel)]
    decide +kernel
  · rw [SearchList.byLength_of_pairwise (by decide +kernel)]
    decide +kernel

end Confinement
