import Confinement.Proofs.Staging.Inside
import Confinement.Proofs.Staging.Tour

/-!
# A directory that holds its own copy

The walk into such a directory comes to the copy, copies that into itself, and
comes to it again further down.  With each step down the path of the copy gets
longer, until it is refused: so the walk does not get through (`outgrows`), and
neither does a pass that has such a directory (`outlying_of_run`).
-/

namespace Confinement

open FileSystem
open Node (IsEntryName)

namespace Stage

variable {fs₀ fs : FileSystem} {stage : Stage} {w w' s s' : Scene} {root source copy p : Path}
  {b l ls lt : Location} {K : List Bytes} {done rest ps : List Path} {mode : Mode}
  {t t' : Tally} {depth : Nat} {name : Bytes} {e : Bytes × Node} {es children : Entries}
  {report : StagingReport}

theorem exists_concat_prefix_of_ne (h : ls <+: lt) (hne : ls ≠ lt) :
    ∃ name, ls ++ [name] <+: lt := by
  obtain ⟨more, rfl⟩ := h
  cases more with
  | nil => exact absurd (List.append_nil ls).symm hne
  | cons name more => exact ⟨name, (List.prefix_append_right_inj ls).mpr ⟨more, rfl⟩⟩

/-- Every entry is copied if all are. -/
theorem exists_copyDeep_of_mem (he : e ∈ children)
    (hrun : (children.foldlM (copyDeep root depth source copy) t).run s = (.ok t', s'))
    (hwell : s.fs.tree.WellFormed) (hleads : s.fs.Leads copy lt) (hroom : Room s.fs lt children) :
    ∃ t₁ t₂ s₁ s₂, (copyDeep root depth source copy t₁ e).run s₁ = (.ok t₂, s₂) ∧
      s₁.fs.tree.WellFormed ∧ Keeps s.fs s₁.fs ∧ s₁.fs.tree.look (lt ++ [e.1]) = none := by
  induction children generalizing s t with
  | nil => exact absurd he List.not_mem_nil
  | cons first children ih =>
      rw [List.foldlM_cons] at hrun
      obtain ⟨t₁, s₁, hone, hrun⟩ := run_bind_eq_ok.mp hrun
      rcases List.mem_cons.mp he with rfl | he
      · exact ⟨t, t₁, s, s₁, hone, hwell, .refl _, hroom.free_head⟩
      · obtain ⟨hadds, hwell₁, -⟩ := copyDeep_spec (addsBelow depth) hone hwell hleads
          hroom.name_head hroom.free_head
        obtain ⟨t₂, t₃, s₂, s₃, hdeep, hwell₂, hkeeps, hplace⟩ :=
          ih he hrun hwell₁ (hleads.mono hadds.toKeeps) (hroom.tail hadds)
        exact ⟨t₂, t₃, s₂, s₃, hdeep, hwell₂, hadds.toKeeps.trans hkeeps, hplace⟩

/-- Walks down to a depth that get through with the copy in the directory, get
through below the limit of the copy's path. -/
def Outgrows (depth : Nat) : Prop :=
  ∀ {root source copy : Path} {t t' : Tally} {s s' : Scene} {ls lt : Location} {mode : Mode},
    (copyBelow root depth source copy t).run s = (.ok t', s') → s.fs.tree.WellFormed →
    (∀ x found, s.fs.find true source = .ok (x, found) → x = ls) → s.fs.Leads copy lt →
    (∀ name, s.fs.tree.look (lt ++ [name]) = none) →
    s.fs.tree.look lt = some (.directory mode) → ls <+: lt → ls ≠ lt → copy.length < pathLimit →
    copy.length + depth < pathLimit

/-- One step down, the directory and its copy lie as before. -/
theorem copyDeep_outgrows (hbelow : Outgrows depth)
    (hrun : (copyDeep root depth source copy t (name, .directory mode es)).run s = (.ok t', s'))
    (hwell : s.fs.tree.WellFormed) (hsource : s.fs.Leads source ls) (hcopy : s.fs.Leads copy lt)
    (hname : IsEntryName name) (hlook : s.fs.tree.look (ls ++ [name]) = some (.directory mode))
    (hfree : s.fs.tree.look (lt ++ [name]) = none) (hin : ls ++ [name] <+: lt) :
    copy.length + (depth + 1) < pathLimit := by
  obtain ⟨t₁, s₁, hentry, hrun⟩ := run_bind_eq_ok.mp hrun
  simp only [Node.isDirectory, ↓reduceIte] at hrun
  obtain ⟨_, _, hmade, -⟩ := run_bind_eq_ok.mp hentry
  have hfits := fits_of_copyDirectory
    (Path.bytes_ne_nil_of_words (by rw [Path.words_child copy hname.toIsName]; simp)) hmade
  obtain ⟨hadds, hwell₁, hthere, hkind⟩ := copyEntry_spec hcopy hname hfree hentry
  have hmode : ∃ m, s₁.fs.tree.look (lt ++ [name]) = some (.directory m) := by
    rcases hkind with ⟨_, hpipe⟩ | ⟨face, hkind, hface⟩
    · cases hpipe
    · cases face with
      | directory m => exact ⟨m, hface⟩
      | file | link | pipe => exact absurd hkind id
  obtain ⟨m, hmode⟩ := hmode
  have hdeeper : ls ++ [name] <+: lt ++ [name] := hin.trans (List.prefix_append lt [name])
  -- A place cannot be as deep as one that lies in it one step further down.
  have hne : ls ++ [name] ≠ lt ++ [name] := by
    intro heq
    have hshort := hin.length_le
    rw [heq, List.length_append, List.length_singleton] at hshort
    omega
  have hseen : s₁.fs.tree.look (ls ++ [name]) = some (Node.directory mode es).face :=
    hadds.look _ _ hlook
  have hlength := hbelow hrun (hwell₁ hwell)
    (fun x found hfind => eq_of_find_child (hsource.mono hadds.toKeeps) hname hseen rfl hfind)
    (hthere rfl) (look_below_entry hadds hfree) hmode hdeeper hne hfits.length_lt
  have hlonger := Path.length_child_lt copy hname.toIsName
  omega

/-- A depth beyond the limit of paths cannot be walked through. -/
theorem outgrows (depth : Nat) : Outgrows depth := by
  induction depth with
  | zero =>
      intro root source copy t t' s s' ls lt mode hrun hwell honly hcopy hempty hthere hin hne
        hlength
      exact hlength
  | succ depth ih =>
      intro root source copy t t' s s' ls lt mode hrun hwell honly hcopy hempty hthere hin hne
        hlength
      rw [copyBelow_succ, run_bind_of_ok (run_get s)] at hrun
      cases hlist : s.fs.list source with
      | error e =>
          simp only [hlist] at hrun
          exact absurd hrun run_throw_ne_ok
      | ok es =>
          simp only [hlist] at hrun
          obtain ⟨x, m, hfind, -⟩ := list_eq_ok_iff.mp hlist
          obtain rfl := honly x _ hfind
          obtain ⟨-, hsource, hat, -⟩ := find_true_eq_ok_iff.mp hfind
          -- The first step on the way to the copy is among the entries.
          obtain ⟨name, hstep⟩ := exists_concat_prefix_of_ne hin hne
          obtain ⟨m', hnext⟩ : ∃ m', s.fs.tree.look (x ++ [name]) = some (.directory m') := by
            by_cases hlast : x ++ [name] = lt
            · exact ⟨mode, hlast ▸ hthere⟩
            · exact Node.exists_directory_of_lt (by rw [hthere]; rfl) hstep hlast
          obtain ⟨es', hnextAt⟩ := Node.look_eq_directory_iff.mp hnext
          rw [← Node.lookup_of_at? hat] at hnextAt
          have he := Node.mem_of_lookup hnextAt
          have hroom : Room s.fs lt es := .of_empty hwell hat hempty
          obtain ⟨t₁, t₂, s₁, s₂, hdeep, hwell₁, hkeeps, hfree⟩ :=
            exists_copyDeep_of_mem he hrun hwell hcopy hroom
          exact copyDeep_outgrows ih hdeep hwell₁ (hsource.mono hkeeps) (hcopy.mono hkeeps)
            (hroom.names _ he) (hkeeps.look _ _ hnext) hfree hstep

/-! ## A pass -/

theorem exists_copyDirectory_of_run (hstat : w.fs.lstat p = .ok (.directory mode es))
    (hok : (stage.copyDirectoryTree t p).run w = (.ok t', w')) :
    ∃ w₁ w₂ t₁, w₁.fs = w.fs ∧ (copyDirectory p (stage.copyPath p)).run w₁ = (.ok (), w₂) ∧
      (copyBelow p pathLimit p (stage.copyPath p) t₁).run w₂ = (.ok t', w') := by
  obtain ⟨w₁, hnote, htree⟩ := run_copyDirectoryTree_eq_ok.mp hok
  have hfs := run_note_eq_ok hnote
  rw [run_copyTree_of_directory (hfs ▸ hstat)] at htree
  obtain ⟨t₁, w₂, hentry, hbelow⟩ := run_bind_eq_ok.mp htree
  obtain ⟨_, w₃, hcopy, hpure⟩ := run_bind_eq_ok.mp hentry
  obtain ⟨-, rfl⟩ := run_pure_eq_ok.mp hpure
  exact ⟨w₁, w₃, t₁, hfs, hcopy, hbelow⟩

/-- Where the next copy would be made inside of its directory, it fails. -/
theorem Laid.not_prefix_of_run (h : Laid fs₀ b K done w.fs) (hunmade : Unmade fs₀ stage.root b K)
    (hparted : ∀ q ∈ done, Parted p.names q.names)
    (hdir : fs₀.find true p = .ok (l, .directory mode es))
    (hstat : fs₀.lstat p = .ok (.directory mode es))
    (hok : (stage.copyDirectoryTree t p).run w = (.ok t', w')) : ¬ l <+: b := by
  intro hin
  obtain ⟨es', hstat'⟩ := h.adds.toKeeps.lstat_directory hstat
  obtain ⟨w₁, w₂, t₁, hfs, hcopy, hbelow⟩ := exists_copyDirectory_of_run hstat' hok
  rw [← hfs] at h hstat'
  obtain ⟨hadds, hwell, hleads, hthere, hempty⟩ := h.made hunmade hparted hstat' hcopy
  have hkeeps := (adds_more h.adds hadds).toKeeps
  have hfits := fits_of_copyDirectory (copyPath_ne_nil hunmade.bytes_ne_nil p) hcopy
  have hne : l ≠ b ++ (K ++ p.names) := by
    rintro rfl
    have hpos := List.length_pos_iff.mpr hunmade.ne_nil
    have hshort := hin.length_le
    simp only [List.length_append] at hshort
    omega
  -- The copy would have to be deeper than any path can be long.
  have hlength := outgrows pathLimit hbelow hwell
    (fun x found hfind => hkeeps.eq_of_find hdir hfind) hleads hempty hthere
    (hin.trans (List.prefix_append b _)) hne hfits.length_lt
  omega

theorem not_prefix_of_foldlM (hwell : fs.tree.WellFormed) (hunmade : Unmade fs stage.root b K)
    (hparted : ps.Pairwise fun p q => Parted p.names q.names) (hp : p ∈ ps)
    (hdir : fs.find true p = .ok (l, .directory mode es))
    (hstat : fs.lstat p = .ok (.directory mode es)) (hfs : w.fs = fs)
    (hok : (ps.foldlM stage.copyDirectoryTree t).run w = (.ok t', w')) : ¬ l <+: b := by
  obtain ⟨done, rest, rfl⟩ := List.append_of_mem hp
  rw [List.foldlM_append] at hok
  obtain ⟨t₁, w₁, hdone, hok⟩ := run_bind_eq_ok.mp hok
  rw [List.foldlM_cons] at hok
  obtain ⟨t₂, w₂, hone, -⟩ := run_bind_eq_ok.mp hok
  have hlaid : Laid fs b K [] w.fs := by
    rw [hfs]
    exact ⟨hwell, .refl _ _⟩
  exact (hlaid.pass hunmade (List.pairwise_append.mp hparted).1 hdone).not_prefix_of_run hunmade
    (parted_of_pairwise hparted) hdir hstat hone

theorem Barren.foldlM_ne_ok (h : Barren fs stage) (hbytes : stage.root.bytes ≠ [])
    (hroot : ¬ fs.isDirectory stage.root) (hp : p ∈ ps)
    (hstat : fs.lstat p = .ok (.directory mode es)) (hfs : w.fs = fs) :
    (ps.foldlM stage.copyDirectoryTree t).run w ≠ (.ok t', w') := by
  intro hok
  obtain ⟨done, rest, rfl⟩ := List.append_of_mem hp
  rw [List.foldlM_append] at hok
  obtain ⟨t₁, w₁, hdone, hok⟩ := run_bind_eq_ok.mp hok
  rw [List.foldlM_cons] at hok
  obtain ⟨t₂, w₂, hone, -⟩ := run_bind_eq_ok.mp hok
  have hsame := fs_eq_of_foldlM hbytes hroot h hfs hdone
  obtain ⟨w₃, w₄, t₃, hfs₃, hcopy, -⟩ := exists_copyDirectory_of_run (hsame ▸ hstat) hone
  rw [← hsame, ← hfs₃] at h hroot
  exact h.copyDirectory_ne_ok hbytes hroot hcopy

/-- No directory of a pass holds the place at which the staging root is to be
made. -/
def Outlying (fs : FileSystem) (stage : Stage) (ps : List Path) : Prop :=
  ∀ b, fs.reach? stage.jailRoot stage.staging.names = some b →
    ∀ p ∈ ps, ∀ l, fs.locate p = .ok l → ¬ l <+: b

/-- A path that shows a directory, not through a link in last place. -/
theorem exists_directory_of_lstat (h : (fs.lstat p).map Node.isDirectory = .ok true) :
    ∃ l mode es, fs.find true p = .ok (l, .directory mode es) ∧
      fs.lstat p = .ok (.directory mode es) := by
  obtain ⟨node, hstat, hnode⟩ := map_eq_ok.mp h
  cases node with
  | directory mode es =>
      obtain ⟨l, hfind⟩ := exists_find_of_lstat hstat fun _ => Node.noConfusion
      exact ⟨l, mode, es, hfind, hstat⟩
  | file | link | pipe => cases hnode

/-- A pass over directories whose places lie apart does not succeed if one of
them holds the place of the staging root. -/
theorem outlying_of_run (hwell : fs.tree.WellFormed) (hjail : fs.isDirectory stage.jailRoot)
    (hdirs : ∀ p ∈ ps, (fs.lstat p).map Node.isDirectory = .ok true)
    (hparted : ps.Pairwise fun p q => Parted p.names q.names)
    (hok : stage.run fs ps = (.ok report, w')) (hskipped : report.skipped = false) :
    Outlying fs stage ps := by
  obtain ⟨hroot, t, w₁, hfold, -⟩ := run_copyAll_eq_ok hok hskipped
  obtain ⟨r, mode, es, hjail⟩ := isDirectory_iff.mp hjail
  intro b hreach p hp x hx
  obtain ⟨l, mode', es', hdir, hstat⟩ := exists_directory_of_lstat (hdirs p hp)
  rw [locate_eq_ok_iff.mpr ⟨_, hdir⟩] at hx
  obtain rfl := Except.ok.inj hx
  obtain ⟨hbytes, hbarren | ⟨b', K, hreach', hunmade⟩⟩ := barren_or_unmade hjail hroot
  · exact absurd hfold (hbarren.foldlM_ne_ok hbytes hroot hp hstat rfl)
  · rw [hreach] at hreach'
    obtain rfl := Option.some.inj hreach'
    exact not_prefix_of_foldlM hwell hunmade hparted hp hdir hstat rfl hfold

end Stage

end Confinement
