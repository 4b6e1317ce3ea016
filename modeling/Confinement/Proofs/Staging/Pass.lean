import Mathlib.Data.List.Pairwise
import Confinement.Proofs.Staging.Copy
import Confinement.Proofs.Staging.Site

/-!
# A staging pass

Each search directory is copied below the site of the pass, at its own names.
`Staged fs₀ stage b K done fs` is the invariant of the pass: since `fs₀` only
the copies of the directories done were added, each with the directories above
it, and each is there with all its files.  Where a directory failed, only the
first half of that is left, `Laid fs₀ b K done fs`.

One more directory keeps it (`Staged.step`), so long as no staged place lies
at or below another, and so a whole pass does (`Staged.pass`).
-/

namespace Confinement

open FileSystem
open Node (IsEntryName)

namespace Stage

variable {fs₀ fs fs' : FileSystem} {stage : Stage} {w w' : Scene} {root p q : Path} {b l : Location}
  {K : List Bytes} {done rest : List Path} {name : Bytes} {t t' : Tally} {report : StagingReport}

/-! ## The invariant -/

/-- Neither list of names begins the other. -/
def Parted (names names' : List Bytes) : Prop := ¬ names <+: names' ∧ ¬ names' <+: names

instance (names names' : List Bytes) : Decidable (Parted names names') :=
  inferInstanceAs (Decidable (_ ∧ _))

instance : Std.Symm fun p q : Path => Parted p.names q.names := ⟨fun _ _ h => ⟨h.2, h.1⟩⟩

theorem parted_of_pairwise (h : (done ++ p :: rest).Pairwise fun p q => Parted p.names q.names) :
    ∀ q ∈ done, Parted p.names q.names := by
  intro q hq
  have hqp := (List.pairwise_append.mp h).2.2 q hq p List.mem_cons_self
  exact ⟨hqp.2, hqp.1⟩

/-- What the copies of some directories may add. -/
def Copies (b : Location) (K : List Bytes) (done : List Path) (l : Location) (face : Face) : Prop :=
  ∃ q ∈ done,
    (∃ before, before <+: K ++ q.names ∧ before ≠ K ++ q.names ∧ l = b ++ before ∧
      ∃ mode, face = .directory (freshMode mode)) ∨ b ++ (K ++ q.names) <+: l

/-- A directory found in `fs₀`, not through a link in last place, is copied:
its place is a directory with the same permission bits and has a file for each
of its files. -/
structure Copied (fs₀ fs : FileSystem) (stage : Stage) (place : Location) (q : Path) : Prop where
  noLink : ∀ target, fs₀.lstat q ≠ .ok (.link target)
  leads : fs.Leads (stage.copyPath q) place
  source : ∃ l mode es, fs₀.find true q = .ok (l, .directory mode es) ∧
    fs.tree.look place = some (.directory mode) ∧
      ∀ name m c, es.lookup name = some (.file m c) →
        ∃ m' c', fs.tree.look (place ++ [name]) = some (.file m' c')

/-- The state of a pass that came to some directories, whatever came of them. -/
structure Laid (fs₀ : FileSystem) (b : Location) (K : List Bytes) (done : List Path)
    (fs : FileSystem) : Prop where
  wellFormed : fs.tree.WellFormed
  adds : Adds (Copies b K done) fs₀ fs

/-- The state of a pass after some directories. -/
structure Staged (fs₀ : FileSystem) (stage : Stage) (b : Location) (K : List Bytes)
    (done : List Path) (fs : FileSystem) : Prop where
  wellFormed : fs.tree.WellFormed
  adds : Adds (Copies b K done) fs₀ fs
  copied : ∀ q ∈ done, Copied fs₀ fs stage (b ++ (K ++ q.names)) q

theorem Copies.mono {done' : List Path} {face : Face} (h : Copies b K done l face)
    (hdone : ∀ q ∈ done, q ∈ done') : Copies b K done' l face := by
  obtain ⟨q, hq, hcopy⟩ := h
  exact ⟨q, hdone q hq, hcopy⟩

/-- The copy of one directory adds what it is founded on and what is below
its place. -/
theorem copies_of_foundation {above : List Bytes} {face : Face}
    (hsplit : K ++ p.names = above ++ [name]) (hp : p ∈ done) (h : Foundation b above name l face) :
    Copies b K done l face := by
  refine ⟨p, hp, ?_⟩
  rcases h with ⟨before, hbefore, -, heq, hmode⟩ | ⟨heq, -⟩
  · refine Or.inl ⟨before, ?_, ?_, heq, hmode⟩
    · rw [hsplit]
      exact hbefore.trans (List.prefix_append _ _)
    · rintro rfl
      have hlength := hbefore.length_le
      rw [hsplit, List.length_append, List.length_singleton] at hlength
      omega
  · have hplace : b ++ (K ++ p.names) = l := by rw [heq, hsplit, List.append_assoc]
    exact Or.inr (hplace ▸ List.prefix_refl _)

theorem copies_of_below {face : Face} (hp : p ∈ done) (h : Below (b ++ (K ++ p.names)) l face) :
    Copies b K done l face := by
  obtain ⟨name, hbelow⟩ := h
  exact ⟨p, hp, Or.inr ((List.prefix_append _ _).trans hbelow)⟩

theorem adds_more (h : Adds (Copies b K done) fs₀ fs) (hone : Adds (Copies b K [p]) fs fs') :
    Adds (Copies b K (done ++ [p])) fs₀ fs' := by
  have hold := h.mono fun _ _ hnew => hnew.mono fun q hq => List.mem_append_left [p] hq
  exact hold.trans (hone.mono fun _ _ hnew => hnew.mono fun q hq => List.mem_append_right done hq)

/-- The copy of one directory adds nothing to the place of another. -/
theorem Copies.not_below {face : Face} (h : Copies b K [p] l face)
    (hparted : Parted p.names q.names) :
    ¬ b ++ (K ++ q.names) <+: l := by
  intro hq
  obtain ⟨p', hp, ⟨before, hbefore, -, rfl, -⟩ | hplace⟩ := h
  · obtain rfl := List.mem_singleton.mp hp
    rw [List.prefix_append_right_inj] at hq
    have hnames := hq.trans hbefore
    rw [List.prefix_append_right_inj] at hnames
    exact hparted.2 hnames
  · obtain rfl := List.mem_singleton.mp hp
    -- If one place had something new below both, one of them would lie below the other.
    rcases List.prefix_or_prefix_of_prefix hq hplace with hnames | hnames
    · rw [List.prefix_append_right_inj, List.prefix_append_right_inj] at hnames
      exact hparted.2 hnames
    · rw [List.prefix_append_right_inj, List.prefix_append_right_inj] at hnames
      exact hparted.1 hnames

/-- What is below a directory outside of all places is left as it was. -/
theorem look_of_outside (h : Adds (Copies b K done) fs₀ fs) (hunmade : Unmade fs₀ root b K)
    (hl : (fs₀.tree.look l).isSome) (houtside : ∀ q ∈ done, ¬ l <+: b ++ (K ++ q.names))
    {m : Location} (hm : l <+: m) : fs.tree.look m = fs₀.tree.look m := by
  apply h.look_eq
  intro face hnew
  obtain ⟨q, hq, ⟨before, hbefore, -, rfl, -⟩ | hbelow⟩ := hnew
  · exact houtside q hq (hm.trans ((List.prefix_append_right_inj b).mpr hbefore))
  · rcases List.prefix_or_prefix_of_prefix hm hbelow with hlq | hql
    · exact houtside q hq hlq
    · have hplace : fs₀.tree.look (b ++ (K ++ q.names)) = none :=
        hunmade.look_eq_none (List.prefix_refl _)
          (List.append_ne_nil_of_left_ne_nil hunmade.ne_nil _)
      rw [look_eq_none_below hplace hql] at hl
      cases hl

theorem staged_nil (hwell : fs₀.tree.WellFormed) : Staged fs₀ stage b K [] fs₀ :=
  ⟨hwell, .refl _ _, fun _ hq => absurd hq List.not_mem_nil⟩

theorem Copied.mono {place : Location} (h : Copied fs₀ fs stage place q) (hkeeps : Keeps fs fs') :
    Copied fs₀ fs' stage place q := by
  obtain ⟨l, mode, es, hfind, hmode, hfiles⟩ := h.source
  refine ⟨h.noLink, h.leads.mono hkeeps, l, mode, es, hfind, hkeeps.look _ _ hmode,
    fun name m c hfile => ?_⟩
  obtain ⟨m', c', hlook⟩ := hfiles name m c hfile
  exact ⟨m', c', hkeeps.look _ _ hlook⟩

theorem Staged.laid (h : Staged fs₀ stage b K done fs) : Laid fs₀ b K done fs :=
  ⟨h.wellFormed, h.adds⟩

namespace Laid

theorem place_free (h : Laid fs₀ b K done fs) (hfree : fs₀.tree.look (b ++ K) = none)
    (hparted : ∀ q ∈ done, Parted p.names q.names) :
    fs.tree.look (b ++ (K ++ p.names)) = none := by
  have hold : fs₀.tree.look (b ++ (K ++ p.names)) = none := by
    rw [← List.append_assoc]
    exact look_eq_none_below hfree (List.prefix_append _ _)
  rw [Option.eq_none_iff_forall_ne_some]
  intro face hface
  obtain ⟨q, hq, ⟨before, hbefore, -, heq, -⟩ | hbelow⟩ := h.adds.added _ _ hold hface
  · rw [← List.append_cancel_left heq, List.prefix_append_right_inj] at hbefore
    exact (hparted q hq).1 hbefore
  · rw [List.prefix_append_right_inj, List.prefix_append_right_inj] at hbelow
    exact (hparted q hq).2 hbelow

/-- A link on the way to a place was copied there: it stands at or below the
place of a directory done. -/
theorem exists_of_link {before names : List Bytes} {target : Path}
    (h : Laid fs₀ b K done fs) (hclear : fs₀.Clear b K)
    (hfree : fs₀.tree.look (b ++ K) = none) (hbefore : before <+: K ++ names) (hne : before ≠ [])
    (hlook : fs.tree.look (b ++ before) = some (.link target)) :
    ∃ q ∈ done, K ++ q.names <+: before := by
  -- Were the link there before the pass it would stand on the way to the staging root, which has
  -- none, or below it, where there was nothing.
  have hold : fs₀.tree.look (b ++ before) = none := by
    cases hold : fs₀.tree.look (b ++ before) with
    | none => rfl
    | some face =>
        rw [h.adds.look _ _ hold] at hlook
        obtain rfl := Option.some.inj hlook
        rcases List.prefix_or_prefix_of_prefix hbefore (List.prefix_append K names) with hK | hK
        · exact absurd hold (hclear before hK hne target)
        · rw [look_eq_none_below hfree ((List.prefix_append_right_inj b).mpr hK)] at hold
          cases hold
  obtain ⟨q, hq, ⟨_, -, -, -, mode, hmode⟩ | hbelow⟩ := h.adds.added _ _ hold hlook
  · exact Face.noConfusion hmode
  · rw [List.prefix_append_right_inj] at hbelow
    exact ⟨q, hq, hbelow⟩

theorem clear (h : Laid fs₀ b K done fs) (hclear : fs₀.Clear b K)
    (hfree : fs₀.tree.look (b ++ K) = none) (hparted : ∀ q ∈ done, Parted p.names q.names) :
    fs.Clear b (K ++ p.names) := by
  intro before hbefore hne target hlook
  obtain ⟨q, hq, hbelow⟩ := h.exists_of_link hclear hfree hbefore hne hlook
  have hnames := hbelow.trans hbefore
  rw [List.prefix_append_right_inj] at hnames
  exact (hparted q hq).2 hnames

end Laid

namespace Staged

theorem clear_of_mem (h : Staged fs₀ stage b K done fs) (hclear : fs₀.Clear b K)
    (hfree : fs₀.tree.look (b ++ K) = none)
    (hparted : done.Pairwise fun p q => Parted p.names q.names) (hp : p ∈ done) :
    fs.Clear b (K ++ p.names) := by
  intro before hbefore hne target hlook
  obtain ⟨q, hq, hbelow⟩ := h.laid.exists_of_link hclear hfree hbefore hne hlook
  have hnames := hbelow.trans hbefore
  rw [List.prefix_append_right_inj] at hnames
  have hpq : p = q := by
    by_contra hpq
    exact (hparted.forall hp hq hpq).2 hnames
  subst hpq
  obtain ⟨l, mode, es, -, hplace, -⟩ := (h.copied p hp).source
  rw [(List.IsPrefix.eq_of_length_le hbefore hbelow.length_le), hplace] at hlook
  cases hlook

/-- The staging root leads to its place, and from there the way to a copy goes
straight down. -/
theorem straight (h : Staged fs₀ stage b K done fs) (hsite : Site fs₀ stage.root b K)
    (hfree : fs₀.tree.look (b ++ K) = none)
    (hparted : done.Pairwise fun p q => Parted p.names q.names) (hp : p ∈ done) :
    fs.Leads stage.root (b ++ K) ∧
      ∀ before, before <+: K ++ p.names → before ≠ K ++ p.names → fs.Searchable (b ++ before) := by
  obtain ⟨lead, hlead, m, hm, hleadWalk⟩ := hsite.lead
  obtain ⟨n, hn, hwalk⟩ := (h.copied p hp).leads
  rw [copyPath_words, start, copyPath_isAbsolute] at hwalk
  obtain ⟨n₁, n₂, x, rfl, hroot, hnames⟩ := hwalk.split
  have hturns : fs.Walk n₁ (fs.start stage.root) (lead ++ K) x :=
    hlead ▸ hroot.unpad (pads_filter _)
  obtain ⟨k₁, k₂, b', rfl, hbefore, hafter⟩ := hturns.split
  rw [h.adds.start_eq] at hbefore
  obtain ⟨-, rfl⟩ := hbefore.unique (hleadWalk.mono h.adds.toKeeps)
  have hclear := h.clear_of_mem hsite.clear hfree hparted hp
  have hisName : ∀ key ∈ K, Path.IsName key := fun key hkey => (hsite.entryNames key hkey).toIsName
  obtain ⟨-, rfl, -⟩ :=
    hafter.straight hisName (hclear.initial (List.prefix_append K p.names))
  -- No link is met, so the walk takes the names as they are and searches what it passes.
  have hdown := hafter.append hnames
  obtain ⟨-, -, hsearch⟩ := hdown.straight (fun key hkey => by
    rcases List.mem_append.mp hkey with hkey | hkey
    · exact hisName key hkey
    · exact Path.isName_of_mem_names hkey) hclear
  exact ⟨⟨_, by omega, hroot⟩, hsearch⟩

end Staged

/-! ## One more directory -/

theorem run_copyDirectoryTree_eq_ok : (stage.copyDirectoryTree t p).run w = (.ok t', w') ↔
    ∃ w₁, (note .debug ("Copying " ++ p.display ++ " to " ++ (stage.location p).display)).run w =
      (.ok (), w₁) ∧ (copyTree p (stage.location p) t).run w₁ = (.ok t', w') := by
  unfold copyDirectoryTree
  rw [run_bind_eq_ok]
  have hthrows : ∀ (e : Failure) (w₁ : Scene), (do
      note .error ("Library staging aborted, partial tree left at " ++ stage.root.display)
      throw e : Work Tally).run w₁ ≠ (.ok t', w') := by
    intro e w₁ h
    obtain ⟨_, _, -, h⟩ := run_bind_eq_ok.mp h
    exact run_throw_ne_ok h
  constructor
  · rintro ⟨_, w₁, hnote, htree⟩
    exact ⟨w₁, hnote, (run_tryCatch_eq_ok hthrows).mp htree⟩
  · rintro ⟨w₁, hnote, htree⟩
    exact ⟨(), w₁, hnote, (run_tryCatch_eq_ok hthrows).mpr htree⟩

/-- A copy under a path that ends with a slash is not made of a link. -/
theorem run_copyLink_ne_ok {source copy : Path} (hslash : copy.endsWithSlash) {u : Unit} :
    (copyLink source copy).run w ≠ (.ok u, w') := by
  intro h
  unfold copyLink at h
  obtain ⟨_, _, hget, h⟩ := run_bind_eq_ok.mp h
  obtain ⟨rfl, rfl⟩ := run_get_eq_ok.mp hget
  cases hread : w.fs.readLink source with
  | error e =>
      simp only [hread] at h
      exact absurd h run_throw_ne_ok
  | ok target =>
      simp only [hread] at h
      obtain ⟨hmake, -⟩ := run_change_eq_ok.mp h
      obtain ⟨hno, -⟩ := makeLink_eq_ok (whole_eq_ok.mp hmake)
      rw [hslash] at hno
      cases hno

theorem run_copyTree_of_directory {mode : Mode} {es : Entries}
    (hstat : w.fs.lstat p = .ok (.directory mode es)) :
    (copyTree p (stage.location p) t).run w =
      (copyEntry p (stage.copyPath p) (.directory mode es) t >>=
        copyBelow p pathLimit p (stage.copyPath p)).run w := by
  unfold copyTree
  rw [run_bind_of_ok (run_get w)]
  simp only [hstat, descends, Node.isDirectory, ↓reduceIte, copyPath]

/-- A search directory is copied only if its path is no link. -/
theorem run_copyTree_eq_ok (hslash : (stage.copyPath p).endsWithSlash) (hdir : w.fs.isDirectory p)
    (h : (copyTree p (stage.location p) t).run w = (.ok t', w')) :
    w.fs.find false p = w.fs.find true p ∧
      ∃ w₁ t₁, (copyDirectory p (stage.copyPath p)).run w = (.ok (), w₁) ∧
        (copyBelow p (4095 + 1) p (stage.copyPath p) t₁).run w₁ = (.ok t', w') := by
  obtain ⟨l, mode, es, hfind⟩ := isDirectory_iff.mp hdir
  rcases w.fs.find_false_eq_or p with hsame | ⟨l', target, hlink⟩
  · have hstat : w.fs.lstat p = .ok (.directory mode es) := by rw [lstat, hsame, hfind]; rfl
    rw [run_copyTree_of_directory hstat] at h
    obtain ⟨t₁, w₁, hentry, h⟩ := run_bind_eq_ok.mp h
    obtain ⟨_, w₂, hcopy, hentry⟩ := run_bind_eq_ok.mp hentry
    obtain ⟨rfl, rfl⟩ := run_pure_eq_ok.mp hentry
    exact ⟨hsame, w₂, _, hcopy, h⟩
  · have hstat : w.fs.lstat p = .ok (.link target) := by rw [lstat, hlink]; rfl
    -- A link to a directory would be copied as a link, and that fails at a path with a slash at its
    -- end.
    have hdescends : descends w.fs p (.link target) = .ok true := by
      rw [descends, stat, hfind]
      rfl
    unfold copyTree at h
    rw [run_bind_of_ok (run_get w)] at h
    simp only [hstat, hdescends] at h
    obtain ⟨t₁, w₁, hentry, -⟩ := run_bind_eq_ok.mp h
    obtain ⟨_, w₂, hcopy, -⟩ := run_bind_eq_ok.mp hentry
    exact absurd hcopy (run_copyLink_ne_ok hslash)

/-- The files a directory had are among those represented by a later listing
of it. -/
theorem exists_file_of_represented {fs'' : FileSystem} {place : Location} {es es' : Entries}
    {mode m : Mode} {c : Bytes} (hkeeps : Keeps fs fs')
    (hfind : fs.find true p = .ok (l, .directory mode es))
    (hfile : es.lookup name = some (.file m c))
    (hlist : fs'.list p = .ok es') (hentries : Represented fs'' place es') :
    ∃ m' c', fs''.tree.look (place ++ [name]) = some (.file m' c') := by
  have hat := (find_true_eq_ok_iff.mp hfind).2.2.1
  have hlook : fs.tree.look (l ++ [name]) = some (.file m c) := by
    rw [Node.look, ← Node.lookup_of_at? hat, hfile]
    rfl
  obtain ⟨l', mode', hfind', -⟩ := list_eq_ok_iff.mp hlist
  obtain ⟨node, hfind'', -⟩ := hkeeps.find hfind
  rw [hfind'] at hfind''
  obtain ⟨rfl, rfl⟩ := Prod.mk.inj (Except.ok.inj hfind'')
  -- The later listing is that of the same directory, and what it had it still has.
  have hlook' := hkeeps.look _ _ hlook
  rw [Node.look, ← Node.lookup_of_at? (find_true_eq_ok_iff.mp hfind').2.2.1] at hlook'
  obtain ⟨found, hfound, hface⟩ := Option.map_eq_some_iff.mp hlook'
  obtain rfl : found = .file m c := by
    cases found <;> simp [Node.face] at hface
    rw [hface.1, hface.2]
  rcases hentries _ (Node.mem_of_lookup hfound) with ⟨mode, hpipe⟩ | ⟨face, hkind, hplace⟩
  · cases hpipe
  · cases face with
    | file m' c' => exact ⟨m', c', hplace⟩
    | link | pipe | directory => exact absurd hkind id

/-- A pass that is not skipped copies one directory after the other. -/
theorem run_copyAll_eq_ok {ps : List Path} (h : (stage.copyAll ps).run w = (.ok report, w'))
    (hskipped : report.skipped = false) : ¬ w.fs.isDirectory stage.root ∧ ∃ t w₁,
      (ps.foldlM stage.copyDirectoryTree {}).run w = (.ok t, w₁) ∧ w'.fs = w₁.fs := by
  unfold copyAll at h
  obtain ⟨_, _, hget, h⟩ := run_bind_eq_ok.mp h
  obtain ⟨rfl, rfl⟩ := run_get_eq_ok.mp hget
  split at h
  · obtain ⟨_, w₁, -, h⟩ := run_bind_eq_ok.mp h
    obtain ⟨rfl, -⟩ := run_pure_eq_ok.mp h
    cases hskipped
  · rename_i hroot
    obtain ⟨t, w₁, hfold, h⟩ := run_bind_eq_ok.mp h
    obtain ⟨_, w₂, hnote, h⟩ := run_bind_eq_ok.mp h
    obtain ⟨-, rfl⟩ := run_pure_eq_ok.mp h
    exact ⟨hroot, t, w₁, hfold, run_note_eq_ok hnote⟩

namespace Laid

theorem descends {above : List Bytes} (h : Laid fs₀ b K done fs)
    (hsite : Site fs₀ stage.root b K) (hfree : fs₀.tree.look (b ++ K) = none)
    (hparted : ∀ q ∈ done, Parted p.names q.names) (hnames : ∀ key ∈ p.names, IsEntryName key)
    (hfits : (stage.copyPath p).Fits) (hsplit : K ++ p.names = above ++ [name]) :
    fs.Descends (stage.copyPath p) b above name := by
  have hclear := h.clear hsite.clear hfree hparted
  have hthere := hsite.mono h.adds.toKeeps (hclear.initial (List.prefix_append K p.names))
  exact hthere.descends hfits hnames hclear hsplit

/-- The copy of a directory, still empty. -/
theorem of_copyDirectory {mode : Mode} {es : Entries} (h : Laid fs₀ b K done w.fs)
    (hsite : Site fs₀ stage.root b K) (hfree : fs₀.tree.look (b ++ K) = none)
    (hparted : ∀ q ∈ done, Parted p.names q.names) (hnames : ∀ key ∈ p.names, IsEntryName key)
    (hne : K ++ p.names ≠ []) (hstat : w.fs.lstat p = .ok (.directory mode es))
    (hok : (copyDirectory p (stage.copyPath p)).run w = (.ok (), w')) :
    Adds (Copies b K [p]) w.fs w'.fs ∧ w'.fs.tree.WellFormed ∧
      w'.fs.Leads (stage.copyPath p) (b ++ (K ++ p.names)) ∧
      w'.fs.tree.look (b ++ (K ++ p.names)) = some (.directory mode) ∧
      ∀ key, w'.fs.tree.look (b ++ (K ++ p.names) ++ [key]) = none := by
  obtain ⟨above, name, hsplit⟩ := (List.eq_nil_or_concat' (K ++ p.names)).resolve_left hne
  have hplace : b ++ (K ++ p.names) = b ++ above ++ [name] := by rw [hsplit, List.append_assoc]
  have hplaceFree : w.fs.tree.look (b ++ above ++ [name]) = none := by
    rw [← hplace]
    exact h.place_free hfree hparted
  have hfits := fits_of_copyDirectory (copyPath_ne_nil hsite.bytes_ne_nil p) hok
  have hdescends := h.descends hsite hfree hparted hnames hfits hsplit
  obtain ⟨hadds, hwell, hleads, mode', hlook, hmode⟩ :=
    copyDirectory_spec hdescends hplaceFree hok
  rw [hmode mode es hstat] at hlook
  rw [hplace]
  refine ⟨hadds.mono fun _ _ hnew => ?_, hwell h.wellFormed, hleads, hlook, fun key => ?_⟩
  · exact copies_of_foundation hsplit (List.mem_singleton_self p) hnew
  · rw [hadds.look_eq fun _ => Foundation.not_below]
    exact look_eq_none_below hplaceFree (List.prefix_append _ _)

end Laid

namespace Staged

theorem step (h : Staged fs₀ stage b K done w.fs) (hsite : Site fs₀ stage.root b K)
    (hfree : fs₀.tree.look (b ++ K) = none) (hdir : fs₀.isDirectory p)
    (hparted : ∀ q ∈ done, Parted p.names q.names) (hne : K ++ p.names ≠ [])
    (hok : (stage.copyDirectoryTree t p).run w = (.ok t', w')) :
    Staged fs₀ stage b K (done ++ [p]) w'.fs := by
  obtain ⟨w₁, hnote, hok⟩ := run_copyDirectoryTree_eq_ok.mp hok
  rw [← run_note_eq_ok hnote] at h
  obtain ⟨l, mode, es₀, hfind₀⟩ := isDirectory_iff.mp hdir
  obtain ⟨node, hfind, hface⟩ := h.adds.toKeeps.find hfind₀
  obtain ⟨es₁, rfl⟩ : ∃ es₁, node = .directory mode es₁ := by
    cases node with
    | directory mode' es₁ => exact ⟨es₁, by rw [Face.directory.inj hface]⟩
    | file | link | pipe => cases hface
  obtain ⟨hsame, w₂, t₂, hcopy, hbelow⟩ := run_copyTree_eq_ok
    (endsWithSlash_copyPath hsite.bytes_ne_nil p) (isDirectory_iff.mpr ⟨l, mode, es₁, hfind⟩) hok
  -- A path that was a link before the pass would still be one.
  have hplain : ∀ target, fs₀.lstat p ≠ .ok (.link target) := by
    intro target hlink
    obtain ⟨x, hx⟩ := lstat_eq_ok_iff.mp hlink
    obtain ⟨found, hfound, hlinkFace⟩ := h.adds.toKeeps.find hx
    rw [hsame, hfind] at hfound
    obtain ⟨-, rfl⟩ := Prod.mk.inj (Except.ok.inj hfound)
    cases hlinkFace
  have hnames : ∀ key ∈ p.names, IsEntryName key :=
    fun key hkey => isEntryName_of_mem_names hfind₀ hkey
  obtain ⟨hadds₂, hwell₂, hleads, hlook, hempty⟩ :=
    h.laid.of_copyDirectory hsite hfree hparted hnames
    hne (lstat_eq_ok_iff.mpr ⟨l, hsame.trans hfind⟩) hcopy
  obtain ⟨hadds₃, hwell₃, hall⟩ := copyBelow_spec hbelow hwell₂ hleads hempty
  obtain ⟨es, hlist, hentries⟩ := hall t' rfl
  have hkeeps : Keeps w₁.fs w'.fs := hadds₂.toKeeps.trans hadds₃.toKeeps
  refine ⟨hwell₃, ?_, fun q hq => ?_⟩
  · exact adds_more h.adds (hadds₂.trans (hadds₃.mono fun _ _ hnew =>
      copies_of_below (List.mem_singleton_self p) hnew))
  · rcases List.mem_append.mp hq with hq | hq
    · exact (h.copied q hq).mono hkeeps
    · rw [List.mem_singleton.mp hq]
      refine ⟨hplain, hleads.mono hadds₃.toKeeps, l, mode, es₀, hfind₀, hadds₃.look _ _ hlook, ?_⟩
      intro key m c hfile
      exact exists_file_of_represented (h.adds.toKeeps.trans hadds₂.toKeeps) hfind₀ hfile hlist
        hentries

/-- What a whole pass leaves. -/
theorem pass (h : Staged fs₀ stage b K done w.fs) (hsite : Site fs₀ stage.root b K)
    (hfree : fs₀.tree.look (b ++ K) = none) (hdirs : ∀ p ∈ rest, fs₀.isDirectory p)
    (hparted : (done ++ rest).Pairwise fun p q => Parted p.names q.names)
    (hne : ∀ p ∈ rest, K ++ p.names ≠ [])
    (hok : (rest.foldlM stage.copyDirectoryTree t).run w = (.ok t', w')) :
    Staged fs₀ stage b K (done ++ rest) w'.fs := by
  induction rest generalizing done w t with
  | nil =>
      obtain ⟨-, rfl⟩ := run_pure_eq_ok.mp hok
      rwa [List.append_nil]
  | cons p rest ih =>
      rw [List.foldlM_cons] at hok
      obtain ⟨t₁, w₁, hone, hok⟩ := run_bind_eq_ok.mp hok
      have hstep := h.step hsite hfree (hdirs p List.mem_cons_self) (parted_of_pairwise hparted)
        (hne p List.mem_cons_self) hone
      have hassoc : done ++ p :: rest = done ++ [p] ++ rest := by simp
      rw [hassoc] at hparted ⊢
      exact ih hstep (fun q hq => hdirs q (List.mem_cons_of_mem _ hq)) hparted
        (fun q hq => hne q (List.mem_cons_of_mem _ hq)) hok

end Staged

end Stage

end Confinement
