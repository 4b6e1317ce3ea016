import Confinement.Proofs.SearchList.Apart
import Confinement.Proofs.Staging.Pass
import Confinement.Proofs.Staging.Duplicate
import Confinement.Standpoint

/-!
# What can be staged

A pass takes place where the staging root is missing and can be made
(`Vacant`).  It asks that its directories can be read, that each has a place of
its own outside of them, and that the copies can be written (`Stageable`).

Such a pass succeeds if and only if none of its directories is a link.  The
walk goes on behind a link but copies the link itself, under a path that ends
with a slash, where no link is made.
-/

namespace Confinement

open FileSystem
open Node (IsEntryName)

namespace Stage

variable {fs₀ fs fs' : FileSystem} {stage : Stage} {w w' : Scene} {root p q : Path} {b l : Location}
  {K : List Bytes} {done rest ps : List Path} {t t' : Tally} {face : Face} {mode : Mode}
  {es : Entries}

/-! ## Where the staging root is missing -/

/-- The staging root is missing and can be made: its path leads to a directory
that may be searched and written, and goes on with names, the first of which
is free. -/
structure Vacant (fs : FileSystem) (root : Path) (b : Location) (K : List Bytes) : Prop where
  lead : ∃ lead, root.turns = lead ++ K ∧ ∃ n ≤ linkLimit, fs.Walk n (fs.start root) lead b
  last : ∃ front last, root.words = front ++ [last] ∧ last ≠ Path.dot
  noSlash : root.endsWithSlash = false
  directory : ∃ mode, fs.tree.look b = some (.directory mode) ∧ fs.permits .search mode ∧
    fs.permits .write mode
  entryNames : ∀ key ∈ K, IsEntryName key
  free : ∃ first rest, K = first :: rest ∧ fs.tree.look (b ++ [first]) = none

namespace Vacant

theorem unmade (h : Vacant fs root b K) : Unmade fs root b K := by
  obtain ⟨mode, hmode, -⟩ := h.directory
  exact ⟨h.lead, h.last, ⟨mode, hmode⟩, fun key hkey => (h.entryNames key hkey).toIsName, h.free⟩

theorem ne_nil (h : Vacant fs root b K) : K ≠ [] := h.unmade.ne_nil

theorem look_root (h : Vacant fs root b K) : fs.tree.look (b ++ K) = none := h.unmade.look_root

theorem site (h : Vacant fs root b K) : Site fs root b K := h.unmade.site h.entryNames

/-- A path under which a directory is copied fits if it is short enough. -/
theorem fits (h : Vacant fs stage.root b K) (hwell : fs.tree.WellFormed)
    (hnames : ∀ key ∈ p.names, IsEntryName key) (hlength : (stage.copyPath p).length < pathLimit) :
    (stage.copyPath p).Fits := by
  obtain ⟨lead, hlead, n, -, hwalk⟩ := h.lead
  have hturns : (stage.copyPath p).turns = lead ++ (K ++ p.names) := by
    calc (stage.copyPath p).turns = stage.root.turns ++ p.names := copyPath_turns stage p
      _ = lead ++ K ++ p.names := by rw [hlead]
      _ = lead ++ (K ++ p.names) := List.append_assoc _ _ _
  refine Path.fits_of_turns ?_ (fun turn hturn => ?_) hlength
  · rw [hturns]
    exact List.append_ne_nil_of_right_ne_nil _ (List.append_ne_nil_of_left_ne_nil h.ne_nil _)
  · rw [hturns, List.mem_append, List.mem_append] at hturn
    rcases hturn with hturn | hturn | hturn
    · exact hwalk.nul_notMem hwell hturn
    · exact (h.entryNames turn hturn).nul_notMem
    · exact (hnames turn hturn).nul_notMem

end Vacant

/-- A missing staging root can be made if the ancestors that it has below the
jail's root are directories that may be searched and written. -/
theorem exists_vacant {r : Location}
    (hjail : fs.find true stage.jailRoot = .ok (r, .directory mode es))
    (hnames : ∀ key ∈ stage.staging.names, IsEntryName key)
    (hmissing : fs.tree.look (r ++ stage.staging.names) = none)
    (hopen : ∀ before, before <+: stage.staging.names → ∀ face,
      fs.tree.look (r ++ before) = some face → (∃ mode, face = .directory mode) ∧ Grants fs face) :
    ∃ before rest, stage.staging.names = before ++ rest ∧
      Vacant fs stage.root (r ++ before) rest := by
  obtain ⟨-, ⟨n, hn, hwalk⟩, hat, -⟩ := find_true_eq_ok_iff.mp hjail
  obtain ⟨before, first, rest, hsplit, hbefore, hfirst⟩ :=
    Node.exists_first_missing (by rw [Node.look, hat]; rfl) hmissing
  obtain ⟨face, hface⟩ := Option.isSome_iff_exists.mp hbefore
  have hinit : before <+: stage.staging.names := hsplit ▸ List.prefix_append before _
  obtain ⟨⟨mode', rfl⟩, hwrite, hsearch⟩ := hopen before hinit face hface
  have hne : stage.staging.names ≠ [] := by
    rw [hsplit]
    simp
  -- The way down to the last directory that is there leads through directories.
  have hdown : fs.Walk 0 r before (r ++ before) := by
    refine walk_straight (fun key hkey => ?_) (fun xs hxs hxsne => ?_) hface fun _ =>
      Face.noConfusion
    · have hname := hnames key (hinit.subset hkey)
      exact ⟨hname.toIsName, hname.length_le⟩
    · obtain ⟨m, hm⟩ := Node.exists_directory_of_lt (by rw [hface]; rfl)
        ((List.prefix_append_right_inj r).mpr hxs) fun heq => hxsne (List.append_cancel_left heq)
      exact ⟨m, hm, (hopen xs (hxs.trans hinit) _ hm).2.2⟩
  refine ⟨before, first :: rest, hsplit, ⟨stage.jailRoot.turns ++ before, ?_, n, hn, ?_⟩, ?_, ?_,
    ⟨mode', hface, hsearch, hwrite⟩, ?_, first, rest, rfl, hfirst⟩
  · rw [Stage.root, Path.turns_reroot, hsplit, List.append_assoc]
  · rw [start, Stage.root, Path.isAbsolute_reroot]
    exact (hwalk.unpad (pads_filter _)).append hdown
  · exact exists_last_of_names stage.jailRoot hne
  · exact endsWithSlash_reroot_of_names stage.jailRoot hne
  · exact fun key hkey => hnames key (hsplit ▸ List.mem_append_right before hkey)

/-- What a pass asks of its directories: each can be read, and its copy
written, and no place is at or below another or inside one of them. -/
structure Stageable (fs : FileSystem) (stage : Stage) (b : Location) (K : List Bytes)
    (ps : List Path) : Prop where
  copyable : ∀ p ∈ ps, ∀ l, fs.locate p = .ok l → Copyable fs p (stage.copyPath p) l
  parted : ps.Pairwise fun p q => Parted p.names q.names
  outside : ∀ p ∈ ps, ∀ q ∈ ps, ∀ l, fs.locate p = .ok l → ¬ l <+: b ++ (K ++ q.names)

/-- What a pass asks can be seen from the faces below its directories. -/
theorem Stageable.of_faces (hparted : ps.Pairwise fun p q => Parted p.names q.names)
    (h : ∀ p ∈ ps, ∀ l ∈ (fs.locate p).toOption,
      (∀ e ∈ (fs.tree.at? l).elim [] Node.faces, Readable fs (e.1.foldl Path.child p) e.2 ∧
        (e.1.foldl Path.child (stage.copyPath p)).length < pathLimit ∧ Grants fs e.2) ∧
      ∀ q ∈ ps, ¬ l <+: b ++ (K ++ q.names)) : Stageable fs stage b K ps := by
  have hall : ∀ p ∈ ps, ∀ l, fs.locate p = .ok l → _ := fun p hp l hl => h p hp l (by rw [hl]; rfl)
  exact ⟨fun p hp l hl => .of_faces (hall p hp l hl).1, hparted,
    fun p hp q hq l hl => (hall p hp l hl).2 q hq⟩

/-! ## One directory -/

namespace Staged

/-- Each directory on the way to the next place grants everything: it is the
one that the staging root is made in, or was made by this pass. -/
theorem grants (h : Staged fs₀ stage b K done fs) (hvacant : Vacant fs₀ stage.root b K)
    (hparted : ∀ q ∈ done, Parted p.names q.names) {before : List Bytes}
    (hbefore : before <+: K ++ p.names) (hlook : fs.tree.look (b ++ before) = some face) :
    ∃ mode, face = .directory mode ∧ fs.permits .search mode ∧ fs.permits .write mode := by
  by_cases hne : before = []
  · subst hne
    obtain ⟨mode, hmode, hsearch, hwrite⟩ := hvacant.directory
    rw [List.append_nil, h.adds.look _ _ hmode] at hlook
    refine ⟨mode, (Option.some.inj hlook).symm, ?_, ?_⟩
    · rwa [h.adds.permits_eq]
    · rwa [h.adds.permits_eq]
  · -- Nothing was there before the pass, so a copy made it: on its own way down, where a fresh
    -- directory grants all, or below its place, where this way does not lead.
    have hold := hvacant.unmade.look_eq_none hbefore hne
    obtain ⟨q, hq, ⟨_, -, -, -, mode, rfl⟩ | hbelow⟩ := h.adds.added _ _ hold hlook
    · exact ⟨_, rfl, permits_freshMode _ _ _, permits_freshMode _ _ _⟩
    · rw [List.prefix_append_right_inj] at hbelow
      have hnames := hbelow.trans hbefore
      rw [List.prefix_append_right_inj] at hnames
      exact absurd hnames (hparted q hq).2

theorem makeDirectories_ok (h : Staged fs₀ stage b K done fs) (hvacant : Vacant fs₀ stage.root b K)
    (hparted : ∀ q ∈ done, Parted p.names q.names) (hnames : ∀ key ∈ p.names, IsEntryName key)
    (hfits : (stage.copyPath p).Fits) :
    ∃ fs', fs.makeDirectories (stage.copyPath p) = (.ok (), fs') := by
  obtain ⟨mode₀, hbase, -⟩ := hvacant.directory
  -- What is missing of the way is made from the last directory that is there.
  obtain ⟨front, first, rest, hsplit, hfront, hfirst⟩ := Node.exists_first_missing
    (by rw [h.adds.look _ _ hbase]; rfl) (h.laid.place_free hvacant.look_root hparted)
  obtain ⟨more, last, hlast⟩ :=
    (List.eq_nil_or_concat' (first :: rest)).resolve_left (List.cons_ne_nil _ _)
  have hdescends : fs.Descends (stage.copyPath p) b (front ++ more) last :=
    h.laid.descends hvacant.site hvacant.look_root hparted hnames hfits
      (by rw [hsplit, hlast, List.append_assoc])
  obtain ⟨face, hface⟩ := Option.isSome_iff_exists.mp hfront
  have hprefix : front <+: K ++ p.names := hsplit ▸ List.prefix_append front _
  obtain ⟨mode, rfl, hsearch, hwrite⟩ := h.grants hvacant hparted hprefix hface
  have hlower := hdescends.lower (fun before hbefore hne => ?_) hface
  · exact hlower.makeEach_ok hface hsearch hwrite hlast.symm hfirst (Nat.le_refl _)
  · obtain ⟨mode', hmode'⟩ := Node.exists_directory_of_lt hfront
      ((List.prefix_append_right_inj b).mpr hbefore) fun heq => hne (List.append_cancel_left heq)
    obtain ⟨_, heq, hsearch', -⟩ := h.grants hvacant hparted (hbefore.trans hprefix) hmode'
    exact ⟨mode', hmode', Face.directory.inj heq ▸ hsearch'⟩

end Staged

theorem run_copyTree_of_copyDirectory {w'' : Scene}
    (hstat : w.fs.lstat p = .ok (.directory mode es))
    (hcopy : (copyDirectory p (stage.copyPath p)).run w = (.ok (), w'))
    (hbelow : (copyBelow p pathLimit p (stage.copyPath p)
      { t with directories := t.directories + 1 }).run w' = (.ok t', w'')) :
    (copyTree p (stage.location p) t).run w = (.ok t', w'') := by
  rw [run_copyTree_of_directory hstat]
  exact run_bind_eq_ok.mpr ⟨_, w', run_bind_eq_ok.mpr ⟨(), w', hcopy, rfl⟩, hbelow⟩

namespace Staged

/-- A pass goes on with a directory that is no link: its copy is made and all
is set for what is in it, which is left to be copied. -/
theorem exists_ready (h : Staged fs₀ stage b K done w.fs) (hwell : fs₀.tree.WellFormed)
    (hvacant : Vacant fs₀ stage.root b K) (hfind₀ : fs₀.find true p = .ok (l, .directory mode es))
    (hplain : ∀ target, fs₀.lstat p ≠ .ok (.link target))
    (hcopyable : Copyable fs₀ p (stage.copyPath p) l)
    (hparted : ∀ q ∈ done, Parted p.names q.names)
    (houtside : ∀ q ∈ done ++ [p], ¬ l <+: b ++ (K ++ q.names)) (t : Tally) :
    ∃ w₁, Adds (Copies b K [p]) w.fs w₁.fs ∧
      Ready w₁.fs p (stage.copyPath p) l (b ++ (K ++ p.names)) mode ∧
      (∀ key, w₁.fs.tree.look (b ++ (K ++ p.names) ++ [key]) = none) ∧
      ∀ t' w', (copyBelow p pathLimit p (stage.copyPath p)
          { t with directories := t.directories + 1 }).run w₁ = (.ok t', w') →
        (stage.copyDirectoryTree t p).run w = (.ok t', w') := by
  obtain ⟨w₁, hnote, hfs⟩ := exists_run_note .debug
    ("Copying " ++ p.display ++ " to " ++ (stage.location p).display) w
  rw [← hfs] at h ⊢
  obtain ⟨-, hleads₀, hat₀, -⟩ := find_true_eq_ok_iff.mp hfind₀
  have hlook₀ : fs₀.tree.look l = some (.directory mode) :=
    Node.look_eq_directory_iff.mpr ⟨es, hat₀⟩
  have hnames : ∀ key ∈ p.names, IsEntryName key :=
    fun key hkey => isEntryName_of_mem_names hfind₀ hkey
  -- The directory is seen as one, whether or not links are followed.
  have hstat₀ := lstat_eq_ok_of_find hfind₀ hplain
  obtain ⟨es₁, hstat⟩ := h.adds.toKeeps.lstat_directory hstat₀
  -- Its copy can be made, and what is below it can be copied as it was.
  have hfits := hvacant.fits hwell hnames (hcopyable.length_lt hlook₀)
  obtain ⟨fs', hmake⟩ := h.makeDirectories_ok hvacant hparted hnames hfits
  obtain ⟨_, w₂, hcopy⟩ := copyDirectory_ok hfits.ne_nil hmake hstat
  obtain ⟨hadds, hwell₂, hleads, hlook, hempty⟩ :=
    h.laid.of_copyDirectory hvacant.site hvacant.look_root
    hparted hnames (List.append_ne_nil_of_left_ne_nil hvacant.ne_nil _) hstat hcopy
  have hadds₂ := adds_more h.adds hadds
  have hp : p ∈ done ++ [p] := List.mem_append_right _ (List.mem_singleton_self p)
  have hready : Ready w₂.fs p (stage.copyPath p) l (b ++ (K ++ p.names)) mode :=
    { wellFormed := hwell₂
      leads_source := hleads₀.mono hadds₂.toKeeps
      leads_copy := hleads
      look_source := hadds₂.look _ _ hlook₀
      look_copy := hlook
      copyable := hcopyable.mono hadds₂.toKeeps fun m hm =>
        look_of_outside hadds₂ hvacant.unmade (by rw [hlook₀]; rfl) houtside hm
      apart := houtside p hp }
  exact ⟨w₂, hadds, hready, hempty, fun t' w' hbelow => run_copyDirectoryTree_eq_ok.mpr
    ⟨w₁, hnote, run_copyTree_of_copyDirectory hstat hcopy hbelow⟩⟩

/-- The next directory is staged exactly as it was found. -/
theorem exists_copyDirectoryTree (h : Staged fs₀ stage b K done w.fs) (hwell : fs₀.tree.WellFormed)
    (hvacant : Vacant fs₀ stage.root b K) (hfind₀ : fs₀.find true p = .ok (l, .directory mode es))
    (hplain : ∀ target, fs₀.lstat p ≠ .ok (.link target))
    (hcopyable : Copyable fs₀ p (stage.copyPath p) l)
    (hparted : ∀ q ∈ done, Parted p.names q.names)
    (houtside : ∀ q ∈ done ++ [p], ¬ l <+: b ++ (K ++ q.names)) (t : Tally) :
    ∃ w', (stage.copyDirectoryTree t p).run w = (.ok (t + fs₀.tallyOf p), w') ∧
      Adds (Copies b K [p]) w.fs w'.fs ∧
      CopyOf w'.fs (b ++ (K ++ p.names)) (.directory mode es) := by
  obtain ⟨w₁, hadds, hready, hempty, hrun⟩ :=
    h.exists_ready hwell hvacant hfind₀ hplain hcopyable hparted houtside t
  have hall := adds_more h.adds hadds
  have hat₀ := at?_of_find hfind₀
  -- What is in the directory looks as it did before the pass.
  obtain ⟨es₁, hat⟩ := Node.look_eq_directory_iff.mp hready.look_source
  have hsame : ∀ names,
      (Node.directory mode es).look names = (Node.directory mode es₁).look names := by
    intro names
    rw [← Node.look_append hat, ← Node.look_append hat₀,
      look_of_outside hall hvacant.unmade (by rw [Node.look, hat₀]; rfl) houtside
        (List.prefix_append l names)]
  obtain ⟨w', hbelow, hcopy⟩ := copyBelow_exact p hready hempty hat
    { t with directories := t.directories + 1 }
  obtain ⟨hadds', -⟩ := addsBelow pathLimit hbelow hready.wellFormed hready.leads_copy
    hempty
  refine ⟨w', ?_, ?_, hcopy.of_look hsame⟩
  · have htally : fs₀.tallyOf p = (Node.directory mode es).tally := by
      rw [tallyOf, lstat_eq_ok_of_find hfind₀ hplain]
    rw [hrun _ _ hbelow, htally,
      Node.tally_eq_of_look (hwell.at? hat₀) (hready.wellFormed.at? hat) hsame,
      Node.tally_directory, ← add_assoc]
    rfl
  · exact hadds.trans (hadds'.mono fun _ _ hnew => copies_of_below (List.mem_singleton_self p) hnew)

/-- A pass over directories that can be staged and are no links stages each
exactly as it was found. -/
theorem pass_exact (h : Staged fs₀ stage b K done w.fs) (hwell : fs₀.tree.WellFormed)
    (hvacant : Vacant fs₀ stage.root b K) (hstageable : Stageable fs₀ stage b K (done ++ rest))
    (hdirs : ∀ p ∈ rest, fs₀.isDirectory p)
    (hplain : ∀ p ∈ rest, ∀ target, fs₀.lstat p ≠ .ok (.link target))
    (hcopies : ∀ q ∈ done, ∀ node, fs₀.lstat q = .ok node →
      CopyOf w.fs (b ++ (K ++ q.names)) node) :
    ∃ w', (rest.foldlM stage.copyDirectoryTree t).run w =
      (.ok (t + (rest.map fs₀.tallyOf).sum), w') ∧
      ∀ q ∈ done ++ rest, ∀ node, fs₀.lstat q = .ok node →
        CopyOf w'.fs (b ++ (K ++ q.names)) node := by
  induction rest generalizing done w t with
  | nil =>
      refine ⟨w, run_pure_eq_ok.mpr ⟨(add_zero t).symm, rfl⟩, ?_⟩
      rwa [List.append_nil]
  | cons p rest ih =>
      have hassoc : done ++ p :: rest = done ++ [p] ++ rest := by simp
      have hp : p ∈ p :: rest := List.mem_cons_self
      have hmem : p ∈ done ++ p :: rest := List.mem_append_right done hp
      have hdir := hdirs p hp
      obtain ⟨l, mode, es, hfind⟩ := isDirectory_iff.mp hdir
      have hl : fs₀.locate p = .ok l := locate_eq_ok_iff.mpr ⟨_, hfind⟩
      have hparted := parted_of_pairwise hstageable.parted
      have houtside : ∀ q ∈ done ++ [p], ¬ l <+: b ++ (K ++ q.names) := by
        intro q hq
        refine hstageable.outside p hmem q ?_ l hl
        rw [hassoc]
        exact List.mem_append_left rest hq
      obtain ⟨w₁, hone, hadds, hcopy⟩ := h.exists_copyDirectoryTree hwell hvacant hfind
        (hplain p hp) (hstageable.copyable p hmem l hl) hparted houtside t
      have hstep := h.step hvacant.site hvacant.look_root hdir hparted
        (List.append_ne_nil_of_left_ne_nil hvacant.ne_nil _) hone
      -- The copies made before are not touched.
      have hcopies₁ : ∀ q ∈ done ++ [p], ∀ node, fs₀.lstat q = .ok node →
          CopyOf w₁.fs (b ++ (K ++ q.names)) node := by
        intro q hq node hnode
        rcases List.mem_append.mp hq with hq | hq
        · refine (hcopies q hq node hnode).mono hadds.superuser_eq fun m hm =>
            hadds.look_eq fun face hnew => ?_
          exact hnew.not_below (hparted q hq) hm
        · obtain rfl := List.mem_singleton.mp hq
          rw [lstat_eq_ok_of_find hfind (hplain q hp)] at hnode
          cases hnode
          exact hcopy
      rw [hassoc] at hstageable
      obtain ⟨w', hrun, hall⟩ := ih hstep hstageable
        (fun q hq => hdirs q (List.mem_cons_of_mem _ hq))
        (fun q hq => hplain q (List.mem_cons_of_mem _ hq)) hcopies₁
      refine ⟨w', ?_, by rwa [hassoc]⟩
      rw [List.foldlM_cons, run_bind_of_ok hone, hrun, List.map_cons, List.sum_cons, ← add_assoc]

theorem pass_ok (h : Staged fs₀ stage b K [] w.fs) (hwell : fs₀.tree.WellFormed)
    (hvacant : Vacant fs₀ stage.root b K) (hstageable : Stageable fs₀ stage b K rest)
    (hdirs : ∀ p ∈ rest, fs₀.isDirectory p)
    (hplain : ∀ p ∈ rest, ∀ target, fs₀.lstat p ≠ .ok (.link target)) :
    ∃ t' w', (rest.foldlM stage.copyDirectoryTree t).run w = (.ok t', w') := by
  obtain ⟨w', hrun, -⟩ := h.pass_exact (t := t) hwell hvacant hstageable hdirs hplain
    fun q hq => absurd hq List.not_mem_nil
  exact ⟨_, w', hrun⟩

end Staged

/-! ## A whole pass -/

/-- No directory stands where the staging root is missing. -/
theorem Vacant.not_isDirectory (h : Vacant fs root b K) : ¬ fs.isDirectory root := by
  intro hdir
  obtain ⟨l, mode, es, hfind⟩ := isDirectory_iff.mp hdir
  obtain ⟨-, ⟨n, -, hwalk⟩, -⟩ := find_true_eq_ok_iff.mp hfind
  obtain ⟨lead, hlead, m, -, hbase⟩ := h.lead
  have hturns := hwalk.unpad (pads_filter root.words)
  rw [← Path.turns_eq, hlead] at hturns
  obtain ⟨n₁, n₂, d, -, hleft, hright⟩ := hturns.split
  obtain ⟨-, rfl⟩ := hleft.unique hbase
  obtain ⟨-, rfl, -⟩ :=
    hright.straight (fun key hkey => (h.entryNames key hkey).toIsName) h.site.clear
  -- No link stands on the way, so it comes to the place of the root, where nothing is.
  have hlook := h.look_root
  rw [Node.look, at?_of_find hfind] at hlook
  cases hlook

theorem run_of_foldlM (hroot : ¬ fs.isDirectory stage.root)
    (hpass : (ps.foldlM stage.copyDirectoryTree {}).run ⟨fs, []⟩ = (.ok t, w)) :
    ∃ w', stage.run fs ps = (.ok ⟨stage.root, false, t⟩, w') ∧ w'.fs = w.fs := by
  obtain ⟨w', hnote, hfs⟩ := exists_run_note .info ("Staged " ++ toString ps.length ++
    " search paths under " ++ stage.root.display ++ " (" ++ toString t.directories ++ " dirs, " ++
    toString t.files ++ " files, " ++ toString t.links ++ " symlinks)") w
  refine ⟨w', ?_, hfs⟩
  unfold run copyAll
  refine run_bind_eq_ok.mpr ⟨⟨fs, []⟩, ⟨fs, []⟩, run_get_eq_ok.mpr ⟨rfl, rfl⟩, ?_⟩
  rw [if_neg hroot]
  refine run_bind_eq_ok.mpr ⟨t, w, hpass, ?_⟩
  exact run_bind_eq_ok.mpr ⟨(), w', hnote, run_pure_eq_ok.mpr ⟨rfl, rfl⟩⟩

theorem exists_run_of_foldlM (hroot : ¬ fs.isDirectory stage.root)
    (hpass : ∃ t w, (ps.foldlM stage.copyDirectoryTree {}).run ⟨fs, []⟩ = (.ok t, w)) :
    ∃ report w, stage.run fs ps = (.ok report, w) ∧ report.skipped = false := by
  obtain ⟨t, w, hfold⟩ := hpass
  obtain ⟨w', hrun, -⟩ := run_of_foldlM hroot hfold
  exact ⟨_, w', hrun, rfl⟩

/-- The path that a directory is staged at leads to its place. -/
theorem Copied.exists_find {place : Location} (h : Copied fs₀ fs stage place p)
    (hroot : stage.root.bytes ≠ []) (hslash : stage.root.endsWithSlash = false)
    (hfits : (stage.copyPath p).Fits) : ∃ mode es, fs.find true (stage.location p) =
      .ok (place, .directory mode es) := by
  obtain ⟨l, mode, es, -, hlook, -⟩ := h.source
  have hwords : (stage.location p).words = (stage.copyPath p).words := by
    rw [copyPath_words, location, Path.words_reroot]
  have hleads : fs.Leads (stage.location p) place := by
    obtain ⟨n, hn, hwalk⟩ := h.leads
    refine ⟨n, hn, ?_⟩
    rwa [hwords, start, location, Path.isAbsolute_reroot, ← copyPath_isAbsolute stage p]
  obtain ⟨between, -, hbytes⟩ :=
    Path.exists_join_bytes_eq (stage.location p) (q := ⟨[]⟩) (by decide)
  -- The path of the place is that of the copy without the slash at its end.
  have hfits' : (stage.location p).Fits :=
    hfits.of_bytes_eq (location_ne_nil hroot p) (by rw [copyPath, hbytes, List.append_assoc])
  obtain ⟨es', hat⟩ := Node.look_eq_directory_iff.mp hlook
  refine ⟨mode, es', find_true_eq_ok_iff.mpr ⟨hfits', hleads, hat, fun hends => ?_⟩⟩
  rw [location, Path.endsWithSlash_reroot p hslash] at hends
  cases hends

theorem Copied.isDirectory {place : Location} (h : Copied fs₀ fs stage place p)
    (hroot : stage.root.bytes ≠ []) (hslash : stage.root.endsWithSlash = false)
    (hfits : (stage.copyPath p).Fits) : fs.isDirectory (stage.location p) :=
  isDirectory_iff.mpr ⟨place, h.exists_find hroot hslash hfits⟩

end Stage

section

variable {fs : FileSystem} {entries : List Path} {cwd : Path} {stage : Stage} {b : Location}
  {K : List Bytes}

/-- The directories that are kept are staged, each at its own place, if and
only if none of them is a link. -/
theorem run_select_iff_not_link (hwell : fs.tree.WellFormed)
    (hvacant : Stage.Vacant fs stage.root b K)
    (hstageable : Stage.Stageable fs stage b K (SearchList.select fs entries cwd)) :
    (∃ report w, stage.run fs (SearchList.select fs entries cwd) = (.ok report, w) ∧
      report.skipped = false ∧ ∀ p ∈ SearchList.select fs entries cwd,
        w.fs.isDirectory (stage.jailRoot.reroot (stagedPath stage.staging p))) ↔
      ∀ p ∈ SearchList.select fs entries cwd, ∀ target, fs.lstat p ≠ .ok (.link target) := by
  have hdirs : ∀ p ∈ SearchList.select fs entries cwd, fs.isDirectory p :=
    fun p hp => SearchList.isDirectory_of_mem_select hp
  -- Whatever way the pass went, if it came to an end every directory was copied, and a link is not.
  have hstaged : ∀ {report w}, stage.run fs (SearchList.select fs entries cwd) = (.ok report, w) →
      report.skipped = false →
      Stage.Staged fs stage b K (SearchList.select fs entries cwd) w.fs := by
    intro report w hrun hskipped
    obtain ⟨-, t, w₁, hfold, hfs⟩ := Stage.run_copyAll_eq_ok hrun hskipped
    have hpass := (Stage.staged_nil hwell).pass hvacant.site hvacant.look_root hdirs
      hstageable.parted (fun q _ => List.append_ne_nil_of_left_ne_nil hvacant.ne_nil _) hfold
    rwa [hfs]
  constructor
  · rintro ⟨report, w, hrun, hskipped, -⟩ p hp
    exact ((hstaged hrun hskipped).copied p hp).noLink
  · intro hplain
    obtain ⟨report, w, hrun, hskipped⟩ := Stage.exists_run_of_foldlM hvacant.not_isDirectory
      ((Stage.staged_nil hwell).pass_ok hwell hvacant hstageable hdirs hplain)
    refine ⟨report, w, hrun, hskipped, fun p hp => ?_⟩
    obtain ⟨l, mode, es, hfind⟩ := isDirectory_iff.mp (hdirs p hp)
    have hcopyable := hstageable.copyable p hp l (locate_eq_ok_iff.mpr ⟨_, hfind⟩)
    have hlook := Node.look_eq_directory_iff.mpr ⟨es, at?_of_find hfind⟩
    have hfits := hvacant.fits hwell (fun key hkey => isEntryName_of_mem_names hfind hkey)
      (hcopyable.length_lt hlook)
    rw [stagedPath, ← Path.reroot_reroot]
    exact ((hstaged hrun hskipped).copied p hp).isDirectory hvacant.site.bytes_ne_nil
      hvacant.noSlash hfits

end

/-- Files of a host where `/lib` is a link to `/usr/lib`, with an empty
directory for a jail. -/
def mergedHost : FileSystem where
  tree := .directory 0o755 [
    (Utf8.encode "usr", .directory 0o755 [(Utf8.encode "lib", .directory 0o755 [
      (Utf8.encode "x", .file 0o4755 (Utf8.encode "s")),
      (Utf8.encode "y", .link "x"),
      (Utf8.encode "nested", .directory 0o755 [(Utf8.encode "z", .file 0o644 [])])])]),
    (Utf8.encode "opt", .directory 0o2750 [(Utf8.encode "p", .pipe 0o644)]),
    (Utf8.encode "lib", .link "usr/lib"),
    (Utf8.encode "jail", .directory 0o755 [])]

/-- Where these files are staged. -/
def mergedStage : Stage := ⟨"/jail", "/stage"⟩

theorem vacant_mergedHost :
    Stage.Vacant mergedHost mergedStage.root [Utf8.encode "jail"] [Utf8.encode "stage"] := by
  have hnames : mergedStage.staging.names = [Utf8.encode "stage"] := by decide +kernel
  have hroot : mergedHost.tree.look [Utf8.encode "jail"] = some (.directory 0o755) := by
    decide +kernel
  have hmissing : mergedHost.tree.look [Utf8.encode "jail", Utf8.encode "stage"] = none := by
    decide +kernel
  have hisDirectory : mergedHost.isDirectory mergedStage.jailRoot := by decide +kernel
  have hplace : mergedHost.locate mergedStage.jailRoot = .ok [Utf8.encode "jail"] := by
    decide +kernel
  obtain ⟨l, mode, es, hjail⟩ := isDirectory_iff.mp hisDirectory
  obtain rfl : l = [Utf8.encode "jail"] :=
    Except.ok.inj ((locate_eq_ok_iff.mpr ⟨_, hjail⟩).symm.trans hplace)
  obtain ⟨before, rest, hsplit, hvacant⟩ := Stage.exists_vacant hjail
    (by rw [hnames]; decide +kernel) (by rw [hnames]; exact hmissing)
    (by
      intro before hbefore face hface
      rw [hnames, ← List.nil_append [Utf8.encode "stage"]] at hbefore
      rcases List.prefix_concat_iff.mp hbefore with rfl | hnil
      · rw [List.nil_append, List.singleton_append, hmissing] at hface
        cases hface
      · rw [List.prefix_nil.mp hnil, List.append_nil, hroot] at hface
        cases hface
        exact ⟨⟨_, rfl⟩, by decide⟩)
  -- Something is missing, and the staging root has but one name.
  rw [hnames] at hsplit
  cases before with
  | nil =>
      rw [List.nil_append] at hsplit
      rwa [← hsplit, List.append_nil] at hvacant
  | cons key before =>
      obtain ⟨-, hnil⟩ := List.cons.inj hsplit
      exact absurd (List.append_eq_nil_iff.mp hnil.symm).2 hvacant.ne_nil

/-- The directories that the entries `/opt`, `/usr/lib` and some in them come
down to. -/
theorem select_mergedHost :
    SearchList.select mergedHost
        ["/opt", "/opt/", "/usr/lib", "/missing", "/usr/lib/nested"] .root =
      [Path.ofString "/opt", "/usr/lib"] := by
  rw [SearchList.select, SearchList.byLength_of_pairwise (by decide +kernel)]
  decide +kernel

theorem stageable_mergedHost : Stage.Stageable mergedHost mergedStage [Utf8.encode "jail"]
    [Utf8.encode "stage"] ["/opt", "/usr/lib"] :=
  .of_faces (by decide +kernel) (by decide +kernel)

/-- Of five entries the two that are kept are staged. -/
theorem run_select_mergedHost :
    let kept := SearchList.select mergedHost
      ["/opt", "/opt/", "/usr/lib", "/missing", "/usr/lib/nested"] .root
    kept = [Path.ofString "/opt", "/usr/lib"] ∧
      ∃ report w, mergedStage.run mergedHost kept = (.ok report, w) ∧ report.skipped = false ∧
        ∀ p ∈ kept,
          w.fs.isDirectory (mergedStage.jailRoot.reroot (stagedPath mergedStage.staging p)) := by
  intro kept
  have hkept : kept = [Path.ofString "/opt", "/usr/lib"] := select_mergedHost
  have hstageable : Stage.Stageable mergedHost mergedStage [Utf8.encode "jail"]
      [Utf8.encode "stage"] kept := by
    rw [hkept]
    exact stageable_mergedHost
  refine ⟨hkept, (run_select_iff_not_link (by decide +kernel) vacant_mergedHost hstageable).mpr
    fun p hp target hlink => ?_⟩
  have hdirs : ∀ p ∈ [Path.ofString "/opt", "/usr/lib"],
      (mergedHost.lstat p).map Node.isDirectory = .ok true := by decide +kernel
  have hdir := hdirs p (hkept ▸ hp)
  rw [hlink] at hdir
  cases hdir

/-- The directory `/usr/lib` is not staged under a path that is a link to it,
although nothing else is in the way. -/
theorem run_select_mergedHost_of_link :
    let kept := SearchList.select mergedHost ["/lib"] .root
    mergedHost.tree.WellFormed ∧
      Stage.Vacant mergedHost mergedStage.root [Utf8.encode "jail"] [Utf8.encode "stage"] ∧
      Stage.Stageable mergedHost mergedStage [Utf8.encode "jail"] [Utf8.encode "stage"] kept ∧
      kept = [Path.ofString "/lib"] ∧ (mergedStage.run mergedHost kept).1 =
        .error (.staging "/jail/stage/lib/" "No such file or directory (os error 2)") := by
  intro kept
  have hkept : kept = [Path.ofString "/lib"] := by decide +kernel
  refine ⟨by decide +kernel, vacant_mergedHost, ?_, hkept, by decide +kernel⟩
  rw [hkept]
  exact .of_faces (by decide +kernel) (by decide +kernel)

end Confinement
