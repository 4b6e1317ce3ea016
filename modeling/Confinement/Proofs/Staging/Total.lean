import Confinement.Proofs.Staging.Copy

/-!
# Copies that cannot fail

What lies below a source is `Copyable` when each node there can be read and
its copy is named by a path short enough, in a directory that may be written.
Where the copy starts out empty and does not lie inside the source, every step
then succeeds, and what is left of the source stays copyable
(`Copyable.mono`), so the whole copy succeeds (`copyBelow_ok`).
-/

namespace Confinement

open FileSystem
open Node (IsEntryName)

namespace Stage

variable {fs fs' fs₁ : FileSystem} {s s' : Scene} {source copy root p : Path} {l ls lt : Location}
  {name : Bytes} {mode : Mode} {node : Node} {face : Face} {t t' : Tally} {depth : Nat}
  {es : Entries}

/-! ## What can be read -/

/-- What shows at a path can be read: the bytes of a file, the entries of a
directory, the target of a link, which is no longer than a path may be. -/
def Readable (fs : FileSystem) (p : Path) : Face → Prop
  | .file .. => ∃ content, fs.readBytes p = .ok content
  | .link _ => ∃ target, fs.readLink p = .ok target ∧ target.length < pathLimit
  | .directory _ => ∃ es, fs.list p = .ok es
  | .pipe _ => True

theorem exists_eq_ok_iff {α : Type} {x : Except IoError α} :
    (∃ a, x = .ok a) ↔ x.toOption.isSome := by
  cases x <;> simp [Except.toOption]

theorem exists_eq_ok_and_iff {α : Type} {x : Except IoError α} {P : α → Prop} [DecidablePred P] :
    (∃ a, x = .ok a ∧ P a) ↔ x.toOption.any P := by
  cases x <;> simp [Except.toOption]

instance (fs : FileSystem) (p : Path) : (face : Face) → Decidable (Readable fs p face)
  | .file .. | .directory _ => decidable_of_iff _ exists_eq_ok_iff.symm
  | .link _ => decidable_of_iff _ exists_eq_ok_and_iff.symm
  | .pipe _ => .isTrue trivial

theorem Readable.mono (h : Readable fs p face) (hkeeps : Keeps fs fs') : Readable fs' p face := by
  cases face with
  | file m c =>
      obtain ⟨l, node, hfind, hread, hdir⟩ := readBytes_eq_ok_iff.mp h
      obtain ⟨node', hfind', hface⟩ := hkeeps.find hfind
      refine readBytes_eq_ok_iff.mpr ⟨l, node', hfind', ?_, ?_⟩
      · rw [hkeeps.permits_eq, Node.mode_eq_of_face hface]
        exact hread
      · intro hdir'
        apply hdir
        cases node <;> cases node' <;> simp_all [Node.face, Node.isDirectory]
  | link target =>
      obtain ⟨target', hlink, hlength⟩ := h
      obtain ⟨l, hfind⟩ := readLink_eq_ok_iff.mp hlink
      obtain ⟨node', hfind', hface⟩ := hkeeps.find hfind
      cases node' with
      | link target'' =>
          obtain rfl := Face.link.inj hface
          exact ⟨target'', readLink_eq_ok_iff.mpr ⟨l, hfind'⟩, hlength⟩
      | file | pipe | directory => cases hface
  | directory m =>
      obtain ⟨es, hlist⟩ := h
      obtain ⟨l, mode, hfind, hread⟩ := list_eq_ok_iff.mp hlist
      obtain ⟨node', hfind', hface⟩ := hkeeps.find hfind
      cases node' with
      | directory mode' es' =>
          refine ⟨es', list_eq_ok_iff.mpr ⟨l, mode', hfind', ?_⟩⟩
          rw [hkeeps.permits_eq, Face.directory.inj hface]
          exact hread
      | file | pipe | link => cases hface
  | pipe m => trivial

/-- A directory may be written and searched. -/
def Grants (fs : FileSystem) : Face → Prop
  | .directory mode => fs.permits .write mode ∧ fs.permits .search mode
  | .file .. | .link _ | .pipe _ => True

instance (fs : FileSystem) : (face : Face) → Decidable (Grants fs face)
  | .directory _ => instDecidableAnd
  | .file .. | .link _ | .pipe _ => .isTrue trivial

/-- All that shows at a location and below can be read along one path, and
copied along another. -/
structure Copyable (fs : FileSystem) (source copy : Path) (l : Location) : Prop where
  readable : ∀ names face, fs.tree.look (l ++ names) = some face →
    Readable fs (names.foldl Path.child source) face
  short : ∀ names face, fs.tree.look (l ++ names) = some face → (∀ mode, face ≠ .pipe mode) →
    (names.foldl Path.child copy).length < pathLimit
  writable : ∀ names mode name face, fs.tree.look (l ++ names) = some (.directory mode) →
    fs.tree.look (l ++ names ++ [name]) = some face → (∀ mode, face ≠ .pipe mode) →
      fs.permits .write mode ∧ fs.permits .search mode

namespace Copyable

theorem readable_here (h : Copyable fs source copy l) (hlook : fs.tree.look l = some face) :
    Readable fs source face :=
  h.readable [] face (by rwa [List.append_nil])

theorem length_lt (h : Copyable fs source copy l)
    (hlook : fs.tree.look l = some (.directory mode)) :
    copy.length < pathLimit :=
  h.short [] _ (by rwa [List.append_nil]) fun _ => Face.noConfusion

theorem child (h : Copyable fs source copy l) (name : Bytes) :
    Copyable fs (source.child name) (copy.child name) (l ++ [name]) := by
  have happend : ∀ names, l ++ [name] ++ names = l ++ name :: names := by
    intro names
    rw [List.append_assoc, List.singleton_append]
  -- What is asked of all that lies below is asked with one more name in front.
  constructor
  · intro names face hlook
    rw [happend] at hlook
    exact h.readable (name :: names) face hlook
  · intro names face hlook hpipe
    rw [happend] at hlook
    exact h.short (name :: names) face hlook hpipe
  · intro names mode key face hmode hlook hpipe
    rw [happend] at hmode hlook
    exact h.writable (name :: names) mode key face hmode hlook hpipe

/-- Copies made elsewhere change nothing. -/
theorem mono (h : Copyable fs source copy l) (hkeeps : Keeps fs fs')
    (hsame : ∀ m, l <+: m → fs'.tree.look m = fs.tree.look m) : Copyable fs' source copy l := by
  have hbelow : ∀ names, fs'.tree.look (l ++ names) = fs.tree.look (l ++ names) :=
    fun names => hsame _ (List.prefix_append l names)
  constructor
  · intro names face hlook
    rw [hbelow] at hlook
    exact (h.readable names face hlook).mono hkeeps
  · intro names face hlook hpipe
    rw [hbelow] at hlook
    exact h.short names face hlook hpipe
  · intro names mode name face hmode hlook hpipe
    rw [hbelow] at hmode
    rw [List.append_assoc, hbelow, ← List.append_assoc] at hlook
    rw [hkeeps.permits_eq, hkeeps.permits_eq]
    exact h.writable names mode name face hmode hlook hpipe

/-- What shows can be copied if each of its faces can. -/
theorem of_faces (h : ∀ e ∈ (fs.tree.at? l).elim [] Node.faces,
    Readable fs (e.1.foldl Path.child source) e.2 ∧
      (e.1.foldl Path.child copy).length < pathLimit ∧ Grants fs e.2) :
    Copyable fs source copy l := by
  have hall := Node.forall_look_of_faces
    (P := fun names face => Readable fs (names.foldl Path.child source) face ∧
      (names.foldl Path.child copy).length < pathLimit ∧ Grants fs face) h
  constructor
  · exact fun names face hlook => (hall names face hlook).1
  · exact fun names face hlook _ => (hall names face hlook).2.1
  · exact fun names mode _ _ hmode _ _ => (hall names _ hmode).2.2

end Copyable

/-! ## One entry -/

theorem run_change_of_eq {f : FileSystem → Except IoError Unit × FileSystem}
    (hf : f s.fs = (.ok (), fs')) : (change p f).run s = (.ok (), { s with fs := fs' }) :=
  run_change_eq_ok.mpr ⟨hf, rfl⟩

/-- A directory is copied when it can be made. -/
theorem copyDirectory_ok (hne : copy.bytes ≠ []) (hmake : s.fs.makeDirectories copy = (.ok (), fs₁))
    (hstat : s.fs.lstat source = .ok node) :
    ∃ u s', (copyDirectory source copy).run s = (.ok u, s') := by
  obtain ⟨ps, hps⟩ := exists_makeEach_eq s.fs copy
  have heach := hps ▸ hmake
  obtain ⟨l, mode, es, hfind⟩ := isDirectory_iff.mp (isDirectory_makeEach hne heach)
  obtain ⟨x, hlfind⟩ := lstat_eq_ok_iff.mp hstat
  obtain ⟨node', hlfind', -⟩ := (adds_makeEach heach).toKeeps.find hlfind
  -- The mode is read once the directory is made, and what was there before is there still.
  have hstat' : fs₁.lstat source = .ok node' := lstat_eq_ok_iff.mpr ⟨x, hlfind'⟩
  have hmode : whole (·.setMode copy node'.mode) fs₁ = (.ok (), _) :=
    whole_eq_ok.mpr (setMode_of_find hfind node'.mode)
  unfold copyDirectory
  refine exists_run_bind (run_change_of_eq hmake) ?_
  refine exists_run_bind (run_get_eq_ok.mpr ⟨rfl, rfl⟩) ?_
  simp only [hstat']
  exact ⟨(), _, run_change_of_eq hmode⟩

/-- A link is copied to a free place. -/
theorem copyLink_ok {target : Path} (hwell : s.fs.tree.WellFormed)
    (hread : s.fs.readLink source = .ok target) (hlength : target.length < pathLimit)
    (hplaced : s.fs.Placed copy lt name mode) (hslash : copy.endsWithSlash = false) :
    ∃ s', (copyLink source copy).run s = (.ok (), s') := by
  obtain ⟨x, hfind⟩ := readLink_eq_ok_iff.mp hread
  cases hwell.at? (at?_of_find hfind) with
  | link ne_nil nul_notMem =>
      have hmake := makeLink_of_placed hplaced hslash ⟨ne_nil, nul_notMem, hlength⟩
      refine ⟨{ s with fs := s.fs.put (lt ++ [name]) (.link target) }, ?_⟩
      unfold copyLink
      refine run_bind_eq_ok.mpr ⟨s, s, run_get_eq_ok.mpr ⟨rfl, rfl⟩, ?_⟩
      simp only [hread]
      exact run_change_of_eq (whole_eq_ok.mpr hmake)

/-- What is no directory is copied into a directory that may be written. -/
theorem copyEntry_ok (hwell : s.fs.tree.WellFormed) (hname : IsEntryName name)
    (hread : Readable s.fs source node.face) (hdir : ¬ node.isDirectory)
    (hfile : node.isFile → ∀ l found, s.fs.find true source = .ok (l, found) → found.isFile)
    (hplaced : (∀ mode, node.face ≠ .pipe mode) → s.fs.Placed (copy.child name) lt name mode) :
    ∃ t' s', (copyEntry source (copy.child name) node t).run s = (.ok t', s') := by
  have hslash := Path.endsWithSlash_child copy hname.toIsName
  -- A pipe is only noted, so it alone needs no place.
  cases node with
  | directory mode es => exact absurd rfl hdir
  | link target =>
      obtain ⟨target', hlink, hlength⟩ := hread
      obtain ⟨s', hcopy⟩ :=
        copyLink_ok hwell hlink hlength (hplaced fun _ => Face.noConfusion) hslash
      exact exists_run_bind hcopy ⟨_, _, rfl⟩
  | file mode' content =>
      obtain ⟨x, found, hfind, hpermits, -⟩ := readBytes_eq_ok_iff.mp hread
      obtain ⟨fs', hcopy, -⟩ := copyFile_of_placed hfind (hfile rfl x found hfind) hpermits
        (hplaced fun _ => Face.noConfusion) hslash hname
      exact exists_run_bind (run_change_of_eq hcopy) ⟨_, _, rfl⟩
  | pipe mode' =>
      obtain ⟨s', hnote, -⟩ := exists_run_note .debug ("Skipping special file " ++ source.display) s
      exact exists_run_bind hnote ⟨_, _, rfl⟩

/-! ## What is below a directory -/

/-- All is set for copying what is in one directory to another: the two are
there, with the same permission bits, and what is below the first can be
copied and does not contain the second. -/
structure Ready (fs : FileSystem) (source copy : Path) (ls lt : Location) (mode : Mode) : Prop where
  wellFormed : fs.tree.WellFormed
  leads_source : fs.Leads source ls
  leads_copy : fs.Leads copy lt
  look_source : fs.tree.look ls = some (.directory mode)
  look_copy : fs.tree.look lt = some (.directory mode)
  copyable : Copyable fs source copy ls
  apart : ¬ ls <+: lt

namespace Ready

theorem look_eq (h : Ready fs source copy ls lt mode) (hfree : fs.tree.look (lt ++ [name]) = none)
    (hadds : Adds (fun l _ => lt ++ [name] <+: l) fs fs') {m : Location} (hm : ls <+: m) :
    fs'.tree.look m = fs.tree.look m :=
  look_eq_of_apart (by rw [h.look_source]; rfl) h.apart hfree hadds hm

/-- It leaves all set for the other entries. -/
theorem mono (h : Ready fs source copy ls lt mode) (hfree : fs.tree.look (lt ++ [name]) = none)
    (hadds : Adds (fun l _ => lt ++ [name] <+: l) fs fs') (hwell : fs'.tree.WellFormed) :
    Ready fs' source copy ls lt mode := by
  have hkeeps := hadds.toKeeps
  exact ⟨hwell, h.leads_source.mono hkeeps, h.leads_copy.mono hkeeps,
    hkeeps.look _ _ h.look_source, hkeeps.look _ _ h.look_copy,
    h.copyable.mono hkeeps fun m hm => h.look_eq hfree hadds hm, h.apart⟩

/-- All is set for a directory that was copied into an empty place. -/
theorem child {mode' : Mode} (h : Ready fs source copy ls lt mode)
    (hsource : fs.Leads (source.child name) (ls ++ [name]))
    (hcopy : fs.Leads (copy.child name) (lt ++ [name]))
    (hls : fs.tree.look (ls ++ [name]) = some (.directory mode'))
    (hlt : fs.tree.look (lt ++ [name]) = some (.directory mode')) :
    Ready fs (source.child name) (copy.child name) (ls ++ [name]) (lt ++ [name]) mode' :=
  ⟨h.wellFormed, hsource, hcopy, hls, hlt, h.copyable.child name, apart_child h.apart name⟩

theorem placed (h : Ready fs source copy ls lt mode) (hname : IsEntryName name)
    (hlook : fs.tree.look (ls ++ [name]) = some face) (hpipe : ∀ mode, face ≠ .pipe mode)
    (hfree : fs.tree.look (lt ++ [name]) = none) : fs.Placed (copy.child name) lt name mode := by
  have hmode : fs.tree.look (ls ++ []) = some (.directory mode) := by
    rw [List.append_nil]
    exact h.look_source
  obtain ⟨hwrite, hsearch⟩ :=
    h.copyable.writable [] mode name face hmode (by rw [List.append_nil]; exact hlook) hpipe
  have hfits := h.leads_copy.fits_child h.wellFormed hname
    (h.copyable.short [name] face hlook hpipe)
  exact ⟨h.leads_copy.names_child hname.toIsName hname.length_le ⟨mode, h.look_copy, hsearch⟩ hfits,
    h.look_copy, hwrite, hfree⟩

/-- An entry that is no link is found under its path. -/
theorem eq_of_find_child {found : Node} (h : Ready fs source copy ls lt mode)
    (hname : IsEntryName name) (hat : fs.tree.at? (ls ++ [name]) = some node)
    (hplain : ∀ target, node.face ≠ .link target)
    (hfind : fs.find true (source.child name) = .ok (l, found)) : found = node := by
  have hnames := h.leads_source.names_of_find_child hname.toIsName hfind
  have hslash := Path.endsWithSlash_child source hname.toIsName
  rw [hnames.find_true hat (fun target heq => hplain target (heq ▸ rfl))
    (fun hends => by rw [hslash] at hends; cases hends)] at hfind
  exact (Prod.mk.inj (Except.ok.inj hfind)).2.symm

/-- A directory is copied, and all is set for what is in it. -/
theorem exists_copyDirectory {mode' : Mode} (h : Ready s.fs source copy ls lt mode)
    (hname : IsEntryName name) (hlook : s.fs.tree.look (ls ++ [name]) = some (.directory mode'))
    (hfree : s.fs.tree.look (lt ++ [name]) = none) :
    ∃ s', (copyDirectory (source.child name) (copy.child name)).run s = (.ok (), s') ∧
      Adds (fun l _ => lt ++ [name] <+: l) s.fs s'.fs ∧
      Ready s'.fs (source.child name) (copy.child name) (ls ++ [name]) (lt ++ [name]) mode' ∧
      ∀ key, s'.fs.tree.look (lt ++ [name] ++ [key]) = none := by
  -- The source is there.
  obtain ⟨es, hlist⟩ := h.copyable.readable [name] _ hlook
  obtain ⟨x, m, hfind, -⟩ := list_eq_ok_iff.mp hlist
  have hnames := h.leads_source.names_of_find_child hname.toIsName hfind
  obtain ⟨es', hat⟩ := Node.look_eq_directory_iff.mp hlook
  have hstat : s.fs.lstat (source.child name) = .ok (.directory mode' es') :=
    lstat_eq_ok_iff.mpr ⟨_, hnames.find_false (Path.endsWithSlash_child source hname.toIsName) hat⟩
  -- The copy can be made.
  have hplaced := h.placed hname hlook (fun _ => Face.noConfusion) hfree
  have hdescends := h.leads_copy.descends_child hname hfree hplaced.names.fits
  obtain ⟨m', hm', hsearch⟩ := hplaced.names.enters.searchable
  rw [h.look_copy] at hm'
  obtain rfl := Face.directory.inj (Option.some.inj hm')
  obtain ⟨fs₁, hmake⟩ := hdescends.makeEach_ok h.look_copy hsearch hplaced.writable
    (List.nil_append [name]) hfree (Nat.le_refl _)
  obtain ⟨_, s', hok⟩ := copyDirectory_ok hplaced.names.fits.ne_nil hmake hstat
  have hfree' : s.fs.tree.look (lt ++ [] ++ [name]) = none := by rwa [List.append_nil]
  obtain ⟨hadds, hwell, hleads, m, hthere, hmode⟩ :=
    copyDirectory_spec hdescends hfree' hok
  rw [hmode mode' es' hstat, List.append_nil] at hthere
  rw [List.append_nil] at hleads
  have hbelow : Adds (fun l _ => lt ++ [name] <+: l) s.fs s'.fs := by
    refine hadds.mono fun l face hnew => ?_
    rcases hnew with ⟨before, hbefore, hnil, -⟩ | ⟨heq, -⟩
    · exact absurd (List.prefix_nil.mp hbefore) hnil
    · rw [List.append_nil] at heq
      exact heq ▸ List.prefix_refl _
  refine ⟨s', hok, hbelow, ?_, fun key => ?_⟩
  · exact (h.mono hfree hbelow (hwell h.wellFormed)).child
      ((hnames.leads hlook fun _ => Face.noConfusion).mono hadds.toKeeps) hleads
      (hadds.look _ _ hlook) hthere
  · have hsame : s'.fs.tree.look (lt ++ [] ++ [name] ++ [key]) =
        s.fs.tree.look (lt ++ [] ++ [name] ++ [key]) := hadds.look_eq fun _ => Foundation.not_below
    rw [List.append_nil] at hsame
    rw [hsame]
    exact look_eq_none_below hfree (List.prefix_append _ _)

end Ready

/-- Where all is set and the copy is empty, copies down to a depth succeed. -/
def Completes (depth : Nat) : Prop :=
  ∀ {root source copy : Path} {t : Tally} {s : Scene} {ls lt : Location} {mode : Mode},
    Ready s.fs source copy ls lt mode → (∀ name, s.fs.tree.look (lt ++ [name]) = none) →
    ∃ t' s', (copyBelow root depth source copy t).run s = (.ok t', s')

theorem copyDeep_ok {e : Bytes × Node} (hbelow : Completes depth)
    (h : Ready s.fs source copy ls lt mode) (hname : IsEntryName e.1)
    (hlook : s.fs.tree.look (ls ++ [e.1]) = some e.2.face)
    (hfree : s.fs.tree.look (lt ++ [e.1]) = none) :
    ∃ t' s', (copyDeep root depth source copy t e).run s = (.ok t', s') := by
  obtain ⟨name, node⟩ := e
  by_cases hdirectory : node.isDirectory
  · cases node with
    | directory mode' es =>
        obtain ⟨s₁, hcopy, -, hready, hempty⟩ := h.exists_copyDirectory hname hlook hfree
        refine exists_run_bind (run_bind_eq_ok.mpr ⟨_, _, hcopy, rfl⟩) ?_
        exact hbelow hready hempty
    | file | pipe | link => cases hdirectory
  · -- A path that names a file leads to it, so what is copied is a file.
    have hfile : node.isFile → ∀ l found, s.fs.find true (source.child name) = .ok (l, found) →
        found.isFile := by
      intro hnode l found hfind
      obtain ⟨x, hat, hface⟩ := Option.map_eq_some_iff.mp hlook
      cases node with
      | directory | link | pipe => cases hnode
      | file m c =>
          cases x with
          | directory | link | pipe => cases hface
          | file m' c' =>
              rw [h.eq_of_find_child hname hat (fun _ => Face.noConfusion) hfind]
              rfl
    obtain ⟨t₁, s₁, hentry⟩ := copyEntry_ok h.wellFormed hname
      (h.copyable.readable [name] _ hlook) hdirectory hfile
      fun hpipe => h.placed hname hlook hpipe hfree
    refine exists_run_bind hentry ?_
    rw [if_neg hdirectory]
    exact ⟨_, _, rfl⟩

theorem foldlM_copyDeep_ok {entries : Entries} (hbelow : Completes depth)
    (h : Ready s.fs source copy ls lt mode) (hroom : Room s.fs lt entries)
    (hlook : ∀ e ∈ entries, s.fs.tree.look (ls ++ [e.1]) = some e.2.face) :
    ∃ t' s', (entries.foldlM (copyDeep root depth source copy) t).run s = (.ok t', s') := by
  induction entries generalizing s t with
  | nil => exact ⟨t, s, rfl⟩
  | cons e entries ih =>
      obtain ⟨t₁, s₁, hdeep⟩ := copyDeep_ok hbelow h hroom.name_head
        (hlook e List.mem_cons_self) hroom.free_head
      obtain ⟨hadds, hwell, -⟩ := copyDeep_spec (addsBelow depth) hdeep h.wellFormed h.leads_copy
        hroom.name_head hroom.free_head
      rw [List.foldlM_cons]
      refine exists_run_bind hdeep (ih (h.mono hroom.free_head hadds hwell) (hroom.tail hadds) ?_)
      exact fun e' he' => hadds.look _ _ (hlook e' (List.mem_cons_of_mem _ he'))

theorem completes (depth : Nat) : Completes depth := by
  induction depth with
  | zero =>
      intro root source copy t s ls lt mode h hempty
      exact ⟨t, s, rfl⟩
  | succ depth ih =>
      intro root source copy t s ls lt mode h hempty
      obtain ⟨es, hlist⟩ := h.copyable.readable_here h.look_source
      obtain ⟨l, mode', hfind, -⟩ := list_eq_ok_iff.mp hlist
      -- The path is one of this directory alone, so the listing is its own.
      obtain ⟨-, hleads, hat, -⟩ := find_true_eq_ok_iff.mp hfind
      obtain rfl := hleads.unique h.leads_source
      rw [copyBelow_succ]
      refine exists_run_bind (run_get_eq_ok.mpr ⟨rfl, rfl⟩) ?_
      simp only [hlist]
      have hlook : ∀ e ∈ es, s.fs.tree.look (l ++ [e.1]) = some e.2.face := by
        intro e he
        rw [← List.append_nil (l ++ [e.1]), Node.look_of_mem h.wellFormed hat he]
        rfl
      exact foldlM_copyDeep_ok ih h (.of_empty h.wellFormed hat hempty) hlook

theorem copyBelow_ok (h : Ready s.fs source copy ls lt mode)
    (hempty : ∀ name, s.fs.tree.look (lt ++ [name]) = none) :
    ∃ t' s', (copyBelow root depth source copy t).run s = (.ok t', s') :=
  completes depth h hempty

end Stage

end Confinement
