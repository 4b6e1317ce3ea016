import Confinement.Proofs.FileSystem.Ladder
import Confinement.Proofs.Outcome
import Confinement.Staging

/-!
# What a copy leaves behind

A copy adds nodes at its place and below, and changes nothing else, also when
it fails halfway.  If it succeeds, each entry of the source that is no pipe has
a node of its kind in the copy: a directory, a link or a file.

The copy is made into an empty directory (`copyBelow_spec`), so each entry
fills a free place, and what was copied before it is left alone.
-/

namespace Confinement

open FileSystem
open Node (IsEntryName)

namespace Stage

variable {s s' : Scene} {source copy root path : Path} {b l lt : Location} {above : List Bytes}
  {name : Bytes} {mode : Mode} {node : Node} {t t' : Tally} {depth : Nat} {es : Entries}

/-! ## Steps of staging that succeed -/

theorem run_change_eq_ok {f : FileSystem → Except IoError Unit × FileSystem} {u : Unit} :
    (change path f).run s = (.ok u, s') ↔ f s.fs = (.ok (), s'.fs) ∧ s'.log = s.log := by
  unfold change
  rw [run_bind_eq_ok]
  constructor
  · rintro ⟨s₁, s₂, hget, h⟩
    obtain ⟨rfl, rfl⟩ := run_get_eq_ok.mp hget
    cases hf : f s.fs with
    | mk result fs =>
        simp only [hf] at h
        obtain ⟨_, s₃, hset, h⟩ := run_bind_eq_ok.mp h
        obtain rfl := run_set_eq_ok.mp hset
        cases result with
        | error e => exact absurd h run_throw_ne_ok
        | ok =>
            obtain ⟨-, rfl⟩ := run_pure_eq_ok.mp h
            exact ⟨rfl, rfl⟩
  · rintro ⟨hf, hlog⟩
    refine ⟨s, s, run_get_eq_ok.mpr ⟨rfl, rfl⟩, ?_⟩
    simp only [hf]
    refine run_bind_eq_ok.mpr ⟨(), _, run_set_eq_ok.mpr rfl, run_pure_eq_ok.mpr ⟨rfl, ?_⟩⟩
    rw [← hlog]

theorem whole_eq_ok {f : FileSystem → Except IoError FileSystem} {fs fs' : FileSystem} :
    whole f fs = (.ok (), fs') ↔ f fs = .ok fs' := by
  unfold whole
  cases f fs <;> simp

theorem run_change_eq_error {f : FileSystem → Except IoError Unit × FileSystem} {e : Failure}
    (h : (change path f).run s = (.error e, s')) : ∃ io, f s.fs = (.error io, s'.fs) := by
  unfold change at h
  rw [run_bind_of_ok (run_get s)] at h
  cases hf : f s.fs with
  | mk result fs =>
      cases result with
      | error io =>
          simp only [hf] at h
          cases h
          exact ⟨io, rfl⟩
      | ok =>
          simp only [hf] at h
          cases h

theorem whole_eq_error {f : FileSystem → Except IoError FileSystem} {fs fs' : FileSystem}
    {e : IoError} (h : whole f fs = (.error e, fs')) : fs' = fs := by
  unfold whole at h
  split at h
  · cases h
  · exact (Prod.mk.inj h).2.symm

theorem run_note_eq_ok {level : Level} {text : String} {u : Unit}
    (h : (note level text).run s = (.ok u, s')) : s'.fs = s.fs := by
  cases h
  rfl

theorem exists_run_note (level : Level) (text : String) (s : Scene) :
    ∃ s', (note level text).run s = (.ok (), s') ∧ s'.fs = s.fs :=
  ⟨_, rfl, rfl⟩

/-! ## One entry -/

/-- A directory that is copied is made, and then gets its mode. -/
theorem copyDirectory_eq_ok (hok : (copyDirectory source copy).run s = (.ok (), s')) :
    ∃ made node, s.fs.makeDirectories copy = (.ok (), made) ∧ made.lstat source = .ok node ∧
      made.setMode copy node.mode = .ok s'.fs := by
  unfold copyDirectory at hok
  obtain ⟨_, s₁, hmake, hok⟩ := run_bind_eq_ok.mp hok
  obtain ⟨hmake, -⟩ := run_change_eq_ok.mp hmake
  obtain ⟨_, _, hget, hok⟩ := run_bind_eq_ok.mp hok
  obtain ⟨rfl, rfl⟩ := run_get_eq_ok.mp hget
  cases hstat : s₁.fs.lstat source with
  | error e =>
      simp only [hstat] at hok
      exact absurd hok run_throw_ne_ok
  | ok node =>
      simp only [hstat] at hok
      obtain ⟨hmode, -⟩ := run_change_eq_ok.mp hok
      exact ⟨s₁.fs, node, hmake, hstat, whole_eq_ok.mp hmode⟩

theorem copyDirectory_spec (h : s.fs.Descends copy b above name)
    (hfree : s.fs.tree.look (b ++ above ++ [name]) = none)
    (hok : (copyDirectory source copy).run s = (.ok (), s')) :
    Adds (Foundation b above name) s.fs s'.fs ∧
      (s.fs.tree.WellFormed → s'.fs.tree.WellFormed) ∧ s'.fs.Leads copy (b ++ above ++ [name]) ∧
      ∃ mode', s'.fs.tree.look (b ++ above ++ [name]) = some (.directory mode') ∧
        ∀ m es, s.fs.lstat source = .ok (.directory m es) → mode' = m := by
  obtain ⟨made, node, hmake, hstat, hmode⟩ := copyDirectory_eq_ok hok
  obtain ⟨hadds, hwell, mode', es, hfind⟩ := h.makeDirectories_spec hmake
  obtain ⟨l, found, hfind', hput⟩ := setMode_eq_ok hmode
  rw [hfind] at hfind'
  obtain ⟨rfl, rfl⟩ := Prod.mk.inj (Except.ok.inj hfind')
  obtain ⟨hadds', hwell', hleads, hlook⟩ := h.setMode_spec hfree hadds hfind node.mode
  rw [← hput] at hadds' hwell' hleads hlook
  -- The mode is read after the directory was made; by then the source is what it was, since making
  -- only adds.
  refine ⟨hadds', hwell' ∘ hwell, hleads, node.mode, hlook, fun m es hsource => ?_⟩
  obtain ⟨es', hsource'⟩ := hadds.toKeeps.lstat_directory hsource
  rw [hstat] at hsource'
  rw [Except.ok.inj hsource']
  rfl

theorem fits_of_copyDirectory (hne : copy.bytes ≠ [])
    (hok : (copyDirectory source copy).run s = (.ok (), s')) : copy.Fits := by
  obtain ⟨fs₁, -, hmake, -⟩ := copyDirectory_eq_ok hok
  exact fits_of_makeDirectories hne hmake

/-- A directory that is not copied may have been made, as far as that went. -/
theorem copyDirectory_eq_error {e : Failure}
    (h : (copyDirectory source copy).run s = (.error e, s')) :
    ∃ result, s.fs.makeDirectories copy = (result, s'.fs) := by
  unfold copyDirectory at h
  rcases run_bind_cases h with ⟨e', hmake, -⟩ | ⟨_, s₁, hmake, h⟩
  · obtain ⟨io, hmake⟩ := run_change_eq_error hmake
    exact ⟨_, hmake⟩
  · obtain ⟨hmake, -⟩ := run_change_eq_ok.mp hmake
    rw [run_bind_of_ok (run_get s₁)] at h
    cases hstat : s₁.fs.lstat source with
    | error e =>
        simp only [hstat] at h
        cases h
        exact ⟨_, hmake⟩
    | ok node =>
        simp only [hstat] at h
        obtain ⟨io, hmode⟩ := run_change_eq_error h
        rw [whole_eq_error hmode]
        exact ⟨_, hmake⟩

/-- A face is of the kind of a node.  No face is that of a pipe: pipes are not
copied. -/
def SameKind : Node → Face → Prop
  | .directory .., .directory _ => True
  | .link _, .link _ => True
  | .file .., .file .. => True
  | _, _ => False

/-- What the copy of the entry `name` may add to the directory `lt`. -/
def EntryCopy (lt : Location) (name : Bytes) (node : Node) (l : Location) (face : Face) : Prop :=
  l = lt ++ [name] ∧ SameKind node face

theorem Fills.entryCopy {fs fs' : FileSystem} {face : Face} (h : Fills fs (lt ++ [name]) face fs')
    (hkind : SameKind node face) : Adds (EntryCopy lt name node) fs fs' :=
  h.adds.mono fun _ _ hnew => ⟨hnew.1, hnew.2 ▸ hkind⟩

theorem look_below_entry {fs fs' : FileSystem} (h : Adds (EntryCopy lt name node) fs fs')
    (hfree : fs.tree.look (lt ++ [name]) = none) (key : Bytes) :
    fs'.tree.look (lt ++ [name] ++ [key]) = none := by
  rw [h.look_eq]
  · exact look_eq_none_below hfree (List.prefix_append _ _)
  · rintro face ⟨heq, -⟩
    exact absurd (congrArg List.length heq) (by simp)

theorem copyLink_spec (hleads : s.fs.Leads copy lt) (hname : IsEntryName name)
    (hok : (copyLink source (copy.child name)).run s = (.ok (), s')) :
    ∃ target, s.fs.readLink source = .ok target ∧
      Fills s.fs (lt ++ [name]) (.link target) s'.fs := by
  unfold copyLink at hok
  obtain ⟨_, _, hget, hok⟩ := run_bind_eq_ok.mp hok
  obtain ⟨rfl, rfl⟩ := run_get_eq_ok.mp hget
  cases hread : s.fs.readLink source with
  | error e =>
      simp only [hread] at hok
      exact absurd hok run_throw_ne_ok
  | ok target =>
      simp only [hread] at hok
      obtain ⟨hmake, -⟩ := run_change_eq_ok.mp hok
      obtain ⟨-, hfits, d, key, mode, hplaced, hput⟩ := makeLink_eq_ok (whole_eq_ok.mp hmake)
      obtain ⟨rfl, rfl⟩ := hleads.eq_of_names_child hname.toIsName hplaced.names
      refine ⟨target, rfl, ?_⟩
      rw [hput]
      exact fills_put hplaced.directory hplaced.free hname rfl (.link hfits.ne_nil hfits.nul_notMem)

theorem copyLink_eq_error {e : Failure} (h : (copyLink source copy).run s = (.error e, s')) :
    s'.fs = s.fs := by
  unfold copyLink at h
  rw [run_bind_of_ok (run_get s)] at h
  cases hread : s.fs.readLink source with
  | error io =>
      simp only [hread] at h
      cases h
      rfl
  | ok target =>
      simp only [hread] at h
      obtain ⟨io, hmake⟩ := run_change_eq_error h
      exact whole_eq_error hmake

theorem copyFile_spec (hleads : s.fs.Leads copy lt) (hname : IsEntryName name)
    (hfree : s.fs.tree.look (lt ++ [name]) = none)
    (hok : (change source (·.copyFile source (copy.child name))).run s = (.ok (), s')) :
    ∃ l found, s.fs.find true source = .ok (l, found) ∧
      Fills s.fs (lt ++ [name])
        (.file (copiedMode s.fs.superuser found.mode found.content) found.content) s'.fs := by
  obtain ⟨hcopy, -⟩ := run_change_eq_ok.mp hok
  obtain ⟨l, found, opened, -, hfind, hread, hfile, hopen, -⟩ := copyFile_eq_ok hcopy
  obtain ⟨n, hn, hwalk⟩ := hleads
  rw [start, ← Path.isAbsolute_child copy hname.toIsName] at hwalk
  have hslash := Path.endsWithSlash_child copy hname.toIsName
  obtain ⟨mode, hplaced⟩ := placed_of_openEmpty (Path.words_child copy hname.toIsName) hn hwalk
    hname.toIsName hslash hfree hopen
  obtain ⟨fs', hcopy', hfills⟩ := copyFile_of_placed hfind hfile hread hplaced hslash hname
  rw [hcopy] at hcopy'
  obtain ⟨-, rfl⟩ := Prod.mk.inj hcopy'
  exact ⟨l, found, hfind, hfills⟩

/-- A copied entry fills its place with a node of its kind. -/
theorem copyEntry_spec (hleads : s.fs.Leads copy lt) (hname : IsEntryName name)
    (hfree : s.fs.tree.look (lt ++ [name]) = none)
    (hok : (copyEntry source (copy.child name) node t).run s = (.ok t', s')) :
    Adds (EntryCopy lt name node) s.fs s'.fs ∧
      (s.fs.tree.WellFormed → s'.fs.tree.WellFormed) ∧
      (node.isDirectory → s'.fs.Leads (copy.child name) (lt ++ [name])) ∧
      ((∃ mode, node = .pipe mode) ∨
        ∃ face, SameKind node face ∧ s'.fs.tree.look (lt ++ [name]) = some face) := by
  cases node with
  | directory mode' es =>
      obtain ⟨_, s₁, hcopy, hok⟩ := run_bind_eq_ok.mp hok
      obtain ⟨-, rfl⟩ := run_pure_eq_ok.mp hok
      -- The last step of the path is the only one that can be missing, so what is made is this
      -- directory alone.
      have hne : (copy.child name).bytes ≠ [] :=
        Path.bytes_ne_nil_of_words (by rw [Path.words_child copy hname.toIsName]; simp)
      have hdescends := hleads.descends_child hname hfree (fits_of_copyDirectory hne hcopy)
      have hfree' : s.fs.tree.look (lt ++ [] ++ [name]) = none := by rwa [List.append_nil]
      obtain ⟨hadds, hwell, hthere, found, hlook, -⟩ :=
        copyDirectory_spec hdescends hfree' hcopy
      rw [List.append_nil] at hthere hlook
      refine ⟨hadds.mono fun l face hnew => ?_, hwell, fun _ => hthere, Or.inr ⟨_, ?_, hlook⟩⟩
      · rcases hnew with ⟨before, hbefore, hnil, -⟩ | ⟨heq, mode, rfl⟩
        · exact absurd (List.prefix_nil.mp hbefore) hnil
        · exact ⟨by rw [heq, List.append_nil], trivial⟩
      · trivial
  | link target =>
      obtain ⟨_, s₁, hcopy, hok⟩ := run_bind_eq_ok.mp hok
      obtain ⟨-, rfl⟩ := run_pure_eq_ok.mp hok
      obtain ⟨target', -, hfills⟩ := copyLink_spec hleads hname hcopy
      exact ⟨Fills.entryCopy hfills trivial, hfills.wellFormed,
        fun h => absurd h Bool.false_ne_true,
        Or.inr ⟨.link target', trivial, hfills.look_self⟩⟩
  | file mode' content =>
      obtain ⟨_, s₁, hcopy, hok⟩ := run_bind_eq_ok.mp hok
      obtain ⟨-, rfl⟩ := run_pure_eq_ok.mp hok
      obtain ⟨l, found, -, hfills⟩ := copyFile_spec hleads hname hfree hcopy
      exact ⟨Fills.entryCopy hfills trivial, hfills.wellFormed,
        fun h => absurd h Bool.false_ne_true,
        Or.inr ⟨.file _ _, trivial, hfills.look_self⟩⟩
  | pipe mode' =>
      obtain ⟨_, s₁, hnote, hok⟩ := run_bind_eq_ok.mp hok
      obtain ⟨-, rfl⟩ := run_pure_eq_ok.mp hok
      rw [run_note_eq_ok hnote]
      exact ⟨.refl _ _, id, fun h => absurd h Bool.false_ne_true, Or.inl ⟨mode', rfl⟩⟩

/-- An entry that is not copied may be there all the same if it is a directory,
and changes nothing otherwise. -/
theorem copyEntry_fails {e : Failure} (hleads : s.fs.Leads copy lt) (hname : IsEntryName name)
    (hfree : s.fs.tree.look (lt ++ [name]) = none)
    (hfail : (copyEntry source (copy.child name) node t).run s = (.error e, s')) :
    Adds (EntryCopy lt name node) s.fs s'.fs ∧ (s.fs.tree.WellFormed → s'.fs.tree.WellFormed) := by
  cases node with
  | directory mode es =>
      rcases run_bind_cases hfail with ⟨e', hcopy, -⟩ | ⟨_, s₁, -, hpure⟩
      · obtain ⟨result, hmake⟩ := copyDirectory_eq_error hcopy
        obtain ⟨hadds, hwell⟩ :=
          (hleads.heads_child hname.toIsName hfree).adds_makeDirectories hmake
        refine ⟨hadds.mono fun l face hnew => ?_, hwell⟩
        obtain ⟨before, hbefore, hne, rfl, mode, rfl⟩ := hnew
        -- One name is made, so nothing but the directory itself can have been left.
        rcases List.prefix_concat_iff.mp (show before <+: [] ++ [name] from hbefore) with rfl | hnil
        · exact ⟨rfl, trivial⟩
        · exact absurd (List.prefix_nil.mp hnil) hne
      · cases hpure
  | link target =>
      rcases run_bind_cases hfail with ⟨e', hcopy, -⟩ | ⟨_, s₁, -, hpure⟩
      · rw [copyLink_eq_error hcopy]
        exact ⟨.refl _ _, id⟩
      · cases hpure
  | file mode content =>
      rcases run_bind_cases hfail with ⟨e', hcopy, -⟩ | ⟨_, s₁, -, hpure⟩
      · obtain ⟨io, hcopy⟩ := run_change_eq_error hcopy
        rw [copyFile_eq_error hcopy]
        exact ⟨.refl _ _, id⟩
      · cases hpure
  | pipe mode => cases hfail

/-! ## The contents of a directory -/

/-- One entry copied, and what is below it. -/
def copyDeep (root : Path) (depth : Nat) (source copy : Path) (t : Tally) (e : Bytes × Node) :
    Work Tally := do
  let t ← copyEntry (source.child e.1) (copy.child e.1) e.2 t
  if e.2.isDirectory then copyBelow root depth (source.child e.1) (copy.child e.1) t else return t

theorem copyBelow_succ (root : Path) (depth : Nat) (source copy : Path) (t : Tally) :
    copyBelow root (depth + 1) source copy t = (do
      match (← get).fs.list source with
      | .error e => throw (.staging root (walkFailure source e))
      | .ok entries => entries.foldlM (copyDeep root depth source copy) t) := rfl

/-- What a copy may add below the directory `lt`. -/
def Below (lt : Location) (l : Location) (_ : Face) : Prop := ∃ name, lt ++ [name] <+: l

/-- Every entry but a pipe has a node of its kind in the directory `lt`. -/
def Represented (fs : FileSystem) (lt : Location) (entries : Entries) : Prop :=
  ∀ e ∈ entries, (∃ mode, e.2 = .pipe mode) ∨
    ∃ face, SameKind e.2 face ∧ fs.tree.look (lt ++ [e.1]) = some face

/-- Copies down to a depth add below their place only, whatever comes of
them. -/
def AddsBelow (depth : Nat) : Prop :=
  ∀ {root source copy : Path} {t : Tally} {r : Except Failure Tally} {s s' : Scene}
    {lt : Location},
    (copyBelow root depth source copy t).run s = (r, s') → s.fs.tree.WellFormed →
    s.fs.Leads copy lt → (∀ name, s.fs.tree.look (lt ++ [name]) = none) →
    Adds (Below lt) s.fs s'.fs ∧ s'.fs.tree.WellFormed

theorem copyDeep_spec {e : Bytes × Node} {r : Except Failure Tally} (hbelow : AddsBelow depth)
    (hrun : (copyDeep root depth source copy t e).run s = (r, s'))
    (hwell : s.fs.tree.WellFormed) (hleads : s.fs.Leads copy lt)
    (hname : IsEntryName e.1) (hfree : s.fs.tree.look (lt ++ [e.1]) = none) :
    Adds (fun l _ => lt ++ [e.1] <+: l) s.fs s'.fs ∧ s'.fs.tree.WellFormed ∧
      ∀ t', r = .ok t' → Represented s'.fs lt [e] := by
  rcases run_bind_cases hrun with ⟨e', hfail, rfl⟩ | ⟨t₁, s₁, hentry, hrun⟩
  · obtain ⟨hadds, hwell'⟩ := copyEntry_fails hleads hname hfree hfail
    exact ⟨hadds.mono fun l face hnew => hnew.1 ▸ List.prefix_refl _, hwell' hwell, nofun⟩
  obtain ⟨hadds, hwell₁, hthere, hkind⟩ := copyEntry_spec hleads hname hfree hentry
  have hadds₁ : Adds (fun l _ => lt ++ [e.1] <+: l) s.fs s₁.fs :=
    hadds.mono fun l face hnew => hnew.1 ▸ List.prefix_refl _
  -- Once it is there it stays, whatever is added below.
  have hone : ∀ {fs : FileSystem}, Keeps s₁.fs fs → Represented fs lt [e] := by
    intro fs hkeeps e' he'
    rw [List.mem_singleton.mp he']
    refine hkind.imp_right fun ⟨face, hface, hlook⟩ => ⟨face, hface, hkeeps.look _ _ hlook⟩
  split at hrun
  · rename_i hdirectory
    obtain ⟨hadds₂, hwell₂⟩ := hbelow hrun (hwell₁ hwell) (hthere hdirectory)
      (look_below_entry hadds hfree)
    refine ⟨hadds₁.trans (hadds₂.mono fun l face hnew => ?_), hwell₂, fun _ _ =>
      hone hadds₂.toKeeps⟩
    obtain ⟨name, hnew⟩ := hnew
    exact (List.prefix_append _ _).trans hnew
  · cases hrun
    exact ⟨hadds₁, hwell₁ hwell, fun _ _ => hone (.refl _)⟩

/-- What is copied to one entry does not show at another. -/
theorem look_sibling {fs fs' : FileSystem} {key : Bytes}
    (h : Adds (fun l _ => lt ++ [name] <+: l) fs fs') (hne : key ≠ name) :
    fs'.tree.look (lt ++ [key]) = fs.tree.look (lt ++ [key]) := by
  apply h.look_eq
  intro face hbegins
  apply hne
  have heq := List.append_cancel_left (hbegins.eq_of_length (by simp))
  exact (List.singleton_inj.mp heq).symm

/-- Nor does it show in a directory that the copy does not lie in. -/
theorem look_eq_of_apart {fs fs' : FileSystem} {ls m : Location} (hls : (fs.tree.look ls).isSome)
    (hapart : ¬ ls <+: lt) (hfree : fs.tree.look (lt ++ [name]) = none)
    (h : Adds (fun l _ => lt ++ [name] <+: l) fs fs') (hm : ls <+: m) :
    fs'.tree.look m = fs.tree.look m := by
  have hthere : ∀ m, m <+: ls → fs.tree.look m ≠ none := by
    intro m hm hnone
    rw [look_eq_none_below hnone hm] at hls
    cases hls
  apply h.look_eq
  intro _ hnew
  rcases List.prefix_or_prefix_of_prefix hm hnew with hbegins | hbegins
  · rcases List.prefix_concat_iff.mp hbegins with rfl | hbegins
    · exact hthere _ (List.prefix_refl _) hfree
    · exact hapart hbegins
  · exact hthere _ hbegins hfree

theorem apart_child {ls : Location} (hapart : ¬ ls <+: lt) (name : Bytes) :
    ¬ ls ++ [name] <+: lt ++ [name] := by
  intro hbelow
  rcases List.prefix_concat_iff.mp hbelow with heq | hbelow
  · obtain ⟨rfl, -⟩ := List.append_inj' heq rfl
    exact hapart (List.prefix_refl _)
  · exact hapart ((List.prefix_append _ _).trans hbelow)

/-- There is room for entries in the directory `lt`: they have names of their
own, none of which is taken there. -/
structure Room (fs : FileSystem) (lt : Location) (entries : Entries) : Prop where
  nodup : (entries.map Prod.fst).Nodup
  names : ∀ e ∈ entries, IsEntryName e.1
  free : ∀ e ∈ entries, fs.tree.look (lt ++ [e.1]) = none

namespace Room

variable {fs fs' : FileSystem} {e : Bytes × Node} {entries : Entries}

theorem of_empty (hwell : fs.tree.WellFormed) (hat : fs.tree.at? l = some (.directory mode entries))
    (hempty : ∀ name, fs.tree.look (lt ++ [name]) = none) : Room fs lt entries := by
  cases hwell.at? hat with
  | directory _ nodup names nodes => exact ⟨nodup, names, fun e _ => hempty e.1⟩

theorem name_head (h : Room fs lt (e :: entries)) : IsEntryName e.1 :=
  h.names e List.mem_cons_self

theorem free_head (h : Room fs lt (e :: entries)) : fs.tree.look (lt ++ [e.1]) = none :=
  h.free e List.mem_cons_self

theorem ne_head (h : Room fs lt (e :: entries)) : ∀ e' ∈ entries, e'.1 ≠ e.1 := by
  have hnodup := h.nodup
  rw [List.map_cons, List.nodup_cons] at hnodup
  exact fun e' he' heq => hnodup.1 (heq ▸ List.mem_map_of_mem he')

theorem tail (h : Room fs lt (e :: entries))
    (hadds : Adds (fun l _ => lt ++ [e.1] <+: l) fs fs') : Room fs' lt entries := by
  have hnodup := h.nodup
  rw [List.map_cons, List.nodup_cons] at hnodup
  refine ⟨hnodup.2, fun e' he' => h.names e' (List.mem_cons_of_mem e he'), fun e' he' => ?_⟩
  rw [look_sibling hadds (h.ne_head e' he')]
  exact h.free e' (List.mem_cons_of_mem e he')

end Room

theorem foldlM_copyDeep_spec {entries : Entries} {r : Except Failure Tally}
    (hbelow : AddsBelow depth)
    (hrun : (entries.foldlM (copyDeep root depth source copy) t).run s = (r, s'))
    (hwell : s.fs.tree.WellFormed) (hleads : s.fs.Leads copy lt) (hroom : Room s.fs lt entries) :
    Adds (Below lt) s.fs s'.fs ∧ s'.fs.tree.WellFormed ∧
      ∀ t', r = .ok t' → Represented s'.fs lt entries := by
  induction entries generalizing s t with
  | nil =>
      cases hrun
      exact ⟨.refl _ _, hwell, fun _ _ e he => absurd he List.not_mem_nil⟩
  | cons e entries ih =>
      rw [List.foldlM_cons] at hrun
      rcases run_bind_cases hrun with ⟨e', hfail, rfl⟩ | ⟨t₁, s₁, hdeep, hrun⟩
      · obtain ⟨hadds, hwell', -⟩ :=
          copyDeep_spec hbelow hfail hwell hleads hroom.name_head hroom.free_head
        exact ⟨hadds.mono fun l _ hnew => ⟨e.1, hnew⟩, hwell', nofun⟩
      obtain ⟨hadds, hwell₁, hone⟩ :=
        copyDeep_spec hbelow hdeep hwell hleads hroom.name_head hroom.free_head
      -- The entry just copied took no other name, so the others still find theirs free.
      obtain ⟨hadds', hwell', hrest⟩ :=
        ih hrun hwell₁ (hleads.mono hadds.toKeeps) (hroom.tail hadds)
      refine ⟨(hadds.mono fun l _ hnew => ⟨e.1, hnew⟩).trans hadds', hwell',
        fun t' ht' e' he' => ?_⟩
      rcases List.mem_cons.mp he' with rfl | he'
      · refine (hone _ rfl e' (List.mem_singleton_self e')).imp_right fun ⟨face, hface, hlook⟩ => ?_
        exact ⟨face, hface, hadds'.look _ _ hlook⟩
      · exact hrest t' ht' e' he'

theorem copyBelow_listing {r : Except Failure Tally} (hbelow : AddsBelow depth)
    (hrun : (copyBelow root (depth + 1) source copy t).run s = (r, s'))
    (hwell : s.fs.tree.WellFormed) (hleads : s.fs.Leads copy lt)
    (hempty : ∀ name, s.fs.tree.look (lt ++ [name]) = none) :
    Adds (Below lt) s.fs s'.fs ∧ s'.fs.tree.WellFormed ∧
      ∀ t', r = .ok t' → ∃ es, s.fs.list source = .ok es ∧ Represented s'.fs lt es := by
  rw [copyBelow_succ, run_bind_of_ok (run_get s)] at hrun
  cases hlist : s.fs.list source with
  | error e =>
      simp only [hlist] at hrun
      cases hrun
      exact ⟨.refl _ _, hwell, nofun⟩
  | ok es =>
      simp only [hlist] at hrun
      obtain ⟨l, mode', hfind, -⟩ := list_eq_ok_iff.mp hlist
      obtain ⟨hadds, hwell', hentries⟩ := foldlM_copyDeep_spec hbelow hrun hwell hleads
        (.of_empty hwell (at?_of_find hfind) hempty)
      exact ⟨hadds, hwell', fun t' ht' => ⟨es, rfl, hentries t' ht'⟩⟩

theorem addsBelow (depth : Nat) : AddsBelow depth := by
  induction depth with
  | zero =>
      intro root source copy t r s s' lt hrun hwell hleads hempty
      cases hrun
      exact ⟨.refl _ _, hwell⟩
  | succ depth ih =>
      intro root source copy t r s s' lt hrun hwell hleads hempty
      obtain ⟨hadds, hwell', -⟩ := copyBelow_listing ih hrun hwell hleads hempty
      exact ⟨hadds, hwell'⟩

/-- The contents of a directory are copied into an empty one: nothing changes
elsewhere, and at the end each entry but a pipe is represented. -/
theorem copyBelow_spec {r : Except Failure Tally}
    (hrun : (copyBelow root (depth + 1) source copy t).run s = (r, s'))
    (hwell : s.fs.tree.WellFormed) (hleads : s.fs.Leads copy lt)
    (hempty : ∀ name, s.fs.tree.look (lt ++ [name]) = none) :
    Adds (Below lt) s.fs s'.fs ∧ s'.fs.tree.WellFormed ∧
      ∀ t', r = .ok t' → ∃ es, s.fs.list source = .ok es ∧ Represented s'.fs lt es :=
  copyBelow_listing (addsBelow depth) hrun hwell hleads hempty

end Stage

end Confinement
