import Confinement.Proofs.FileSystem.Lineage

/-!
# What no change takes away

A change may set permission bits and replace the bytes of a file, but every
node stays where it is and stays what it is: a directory, a file, a pipe, or a
link to the same target (`Retains`).  So a process that permission bits do not
bind finds after any changes all that it found before (`Retains.find`).  One
that they bind does where it may still search every directory (`Carries`).

This holds of each elementary change, whatever comes of it.
-/

namespace Confinement

/-- A face without what may change about it. -/
def Face.bare : Face → Face
  | .file _ _ => .file 0 []
  | .link target => .link target
  | .pipe _ => .pipe 0
  | .directory _ => .directory 0

namespace FileSystem

variable {fs fs' fs'' : FileSystem} {p source target : Path} {follow : Bool} {n : Nat}
  {here l : Location} {xs : List Bytes} {node x : Node} {face face' : Face} {mode : Mode}

theorem exists_eq_directory_of_bare (h : face'.bare = (Face.directory mode).bare) :
    ∃ mode', face' = .directory mode' := by
  cases face' with
  | directory mode' => exact ⟨mode', rfl⟩
  | file | link | pipe => cases h

theorem eq_link_of_bare (h : face'.bare = (Face.link target).bare) : face' = .link target := by
  cases face' with
  | link => exact h
  | file | pipe | directory => cases h

/-- The files as a process sees them that permission bits do not bind. -/
def unbound (fs : FileSystem) : FileSystem := { fs with superuser := true }

theorem unbound_eq (h : fs.superuser = true) : fs.unbound = fs := by
  rw [unbound, ← h]

/-- Every node is where it was, and is what it was. -/
structure Retains (fs fs' : FileSystem) : Prop where
  root_eq : fs'.root = fs.root
  cwd_eq : fs'.cwd = fs.cwd
  superuser_eq : fs'.superuser = fs.superuser
  look : ∀ l face, fs.tree.look l = some face →
    ∃ face', fs'.tree.look l = some face' ∧ face'.bare = face.bare

theorem Keeps.retains (h : Keeps fs fs') : Retains fs fs' :=
  ⟨h.root_eq, h.cwd_eq, h.superuser_eq, fun l face hl => ⟨face, h.look l face hl, rfl⟩⟩

namespace Retains

theorem refl (fs : FileSystem) : Retains fs fs := (Keeps.refl fs).retains

theorem trans (h : Retains fs fs') (h' : Retains fs' fs'') : Retains fs fs'' := by
  refine ⟨h'.root_eq.trans h.root_eq, h'.cwd_eq.trans h.cwd_eq,
    h'.superuser_eq.trans h.superuser_eq, fun l face hl => ?_⟩
  obtain ⟨face', hl', hbare⟩ := h.look l face hl
  obtain ⟨face'', hl'', hbare'⟩ := h'.look l face' hl'
  exact ⟨face'', hl'', hbare'.trans hbare⟩

theorem unbound (h : Retains fs fs') : Retains fs.unbound fs'.unbound :=
  ⟨h.root_eq, h.cwd_eq, rfl, h.look⟩

theorem look_directory (h : Retains fs fs') (hl : fs.tree.look l = some (.directory mode)) :
    ∃ mode', fs'.tree.look l = some (.directory mode') := by
  obtain ⟨face', hl', hbare⟩ := h.look l _ hl
  obtain ⟨mode', rfl⟩ := exists_eq_directory_of_bare hbare
  exact ⟨mode', hl'⟩

theorem searchable (h : Retains fs fs') (hs : fs.Searchable l) : fs'.unbound.Searchable l := by
  obtain ⟨mode, hl, -⟩ := hs
  obtain ⟨mode', hl'⟩ := h.look_directory hl
  exact ⟨mode', hl', rfl⟩

end Retains

/-! ## Walks made again -/

/-- Whoever gets somewhere in `fs` gets there in `fs'`. -/
structure Carries (fs fs' : FileSystem) : Prop where
  root_eq : fs'.root = fs.root
  cwd_eq : fs'.cwd = fs.cwd
  searchable : ∀ l, fs.Searchable l → fs'.Searchable l
  look : ∀ l face, fs.tree.look l = some face →
    ∃ face', fs'.tree.look l = some face' ∧ face'.bare = face.bare

theorem Retains.carries (h : Retains fs fs') : Carries fs fs'.unbound :=
  ⟨h.root_eq, h.cwd_eq, fun _ hs => h.searchable hs, h.look⟩

namespace Carries

theorem start_eq (h : Carries fs fs') (p : Path) : fs'.start p = fs.start p := by
  rw [start, start, h.root_eq, h.cwd_eq]

theorem enters {name : Bytes} (h : Carries fs fs') (he : fs.Enters here name) :
    fs'.Enters here name :=
  ⟨h.searchable _ he.searchable, he.ne_dot, he.ne_dotdot, he.length_le⟩

/-- A walk can be made again, whatever else became of permission bits. -/
theorem walk (h : Carries fs fs') (hw : fs.Walk n here xs l) : fs'.Walk n here xs l := by
  induction hw with
  | done here => exact .done here
  | stay searchable tail ih => exact .stay (h.searchable _ searchable) ih
  | up searchable tail ih =>
      refine .up (h.searchable _ searchable) ?_
      rwa [above, h.root_eq]
  | down enters look noLink tail ih =>
      obtain ⟨face', hlook, hbare⟩ := h.look _ _ look
      refine .down (h.enters enters) hlook (fun target heq => ?_) ih
      subst heq
      exact noLink target (eq_link_of_bare hbare.symm)
  | follow enters look ne_nil tail ih =>
      obtain ⟨face', hlook, hbare⟩ := h.look _ _ look
      obtain rfl := eq_link_of_bare hbare
      refine .follow (h.enters enters) hlook ne_nil ?_
      rwa [turn, h.root_eq]

/-- What was found is found at the same place, and is what it was. -/
theorem find (h : Carries fs fs') (hfind : fs.find true p = .ok (l, node)) :
    ∃ node', fs'.find true p = .ok (l, node') ∧ node'.face.bare = node.face.bare := by
  obtain ⟨hfits, ⟨n, hn, hwalk⟩, hat, hslash⟩ := find_true_eq_ok_iff.mp hfind
  obtain ⟨face', hlook, hbare⟩ := h.look l node.face (by rw [Node.look, hat]; rfl)
  obtain ⟨node', hat', rfl⟩ := Option.map_eq_some_iff.mp hlook
  refine ⟨node', find_true_eq_ok_iff.mpr ⟨hfits, ⟨n, hn, ?_⟩, hat', fun hends => ?_⟩, hbare⟩
  · rw [h.start_eq]
    exact h.walk hwalk
  · exact h.searchable l (hslash hends)

theorem locate (h : Carries fs fs') (hp : fs.locate p = .ok l) : fs'.locate p = .ok l := by
  obtain ⟨node, hfind⟩ := locate_eq_ok_iff.mp hp
  obtain ⟨node', hfind', -⟩ := h.find hfind
  exact locate_eq_ok_iff.mpr ⟨node', hfind'⟩

end Carries

namespace Retains

/-- What was found is found at the same place, and is what it was. -/
theorem find (h : Retains fs fs') (hfind : fs.find true p = .ok (l, node)) :
    ∃ node', fs'.unbound.find true p = .ok (l, node') ∧ node'.face.bare = node.face.bare :=
  h.carries.find hfind

theorem isDirectory (h : Retains fs fs') (hp : fs.isDirectory p) : fs'.unbound.isDirectory p := by
  obtain ⟨l, mode, es, hfind⟩ := isDirectory_iff.mp hp
  obtain ⟨node', hfind', hbare⟩ := h.find hfind
  obtain ⟨mode', hface⟩ := exists_eq_directory_of_bare hbare
  cases node' with
  | directory mode' es' => exact isDirectory_iff.mpr ⟨l, mode', es', hfind'⟩
  | file | link | pipe => cases hface

end Retains

theorem Placed.unbound {d : Location} {name : Bytes} (h : fs.Placed p d name mode) :
    fs.unbound.Placed p d name mode := by
  obtain ⟨⟨hfits, ⟨xs, hxs, n, hn, hwalk⟩, henters⟩, hdir, -, hfree⟩ := h
  have hsame := (Retains.refl fs).carries
  exact ⟨⟨hfits, ⟨xs, hxs, n, hn, hsame.walk hwalk⟩, hsame.enters henters⟩, hdir, rfl, hfree⟩

/-! ## Elementary changes -/

/-- A node replaced by one of its sort, with the same nodes below it. -/
theorem retains_put (hat : fs.tree.at? l = some node)
    (hx : ∀ m face, node.look m = some face →
      ∃ face', x.look m = some face' ∧ face'.bare = face.bare) :
    Retains fs (fs.put l x) := by
  refine ⟨rfl, rfl, rfl, fun m face hm => ?_⟩
  have hput : (fs.put l x).tree.look m = (fs.tree.put l x).look m := rfl
  rw [hput, Node.look_put (Node.hasPlace_of_at? (by rw [hat]; rfl))]
  split
  · rename_i hlm
    obtain ⟨rest, rfl⟩ := hlm
    rw [Node.look_append hat] at hm
    rw [List.drop_left]
    exact hx rest face hm
  · exact ⟨face, hm, rfl⟩

theorem retains_setMode (h : fs.setMode p mode = .ok fs') : Retains fs fs' := by
  obtain ⟨l, node, hfind, rfl⟩ := setMode_eq_ok h
  refine retains_put (at?_of_find hfind) fun m face hm => ?_
  cases m with
  | nil =>
      obtain rfl := Option.some.inj hm
      exact ⟨(node.withMode mode).face, rfl, by cases node <;> rfl⟩
  | cons name m => exact ⟨face, (Node.look_withMode_cons node mode name m).trans hm, rfl⟩

theorem retains_makeLink (h : fs.makeLink target p = .ok fs') : Retains fs fs' := by
  obtain ⟨-, -, d, name, mode, hplaced, rfl⟩ := makeLink_eq_ok h
  exact (keeps_put (Node.hasPlace_concat hplaced.directory name) hplaced.free _).retains

theorem retains_put_file {m m' : Mode} {c c' : Bytes} (hat : fs.tree.at? l = some (.file m c)) :
    Retains fs (fs.put l (.file m' c')) := by
  refine retains_put hat fun names face hface => ?_
  cases names with
  | nil =>
      obtain rfl := Option.some.inj hface
      exact ⟨.file m' c', rfl, rfl⟩
  | cons name names => cases hface

theorem retains_openEmpty {opened : Location × FileSystem}
    (h : fs.openEmpty p mode = .ok opened) : Retains fs opened.2 := by
  unfold openEmpty at h
  obtain ⟨_, -, h⟩ := bind_eq_ok.mp h
  obtain ⟨_, -, h⟩ := bind_eq_ok.mp h
  by_cases hslash : p.endsWithSlash
  · rw [if_pos hslash] at h
    split at h <;> cases h
  rw [if_neg hslash] at h
  cases hspot : fs.resolve true p with
  | error e => simp [hspot] at h
  | ok spot =>
      rw [hspot] at h
      obtain ⟨_, -, hroute⟩ := bind_eq_ok.mp hspot
      -- A free place is filled, a file is emptied, and any other node is left as it is.
      cases spot with
      | free d name =>
          obtain ⟨henters, hfree⟩ := enters_of_route_free hroute
          obtain ⟨mode', hdir, -⟩ := henters.searchable
          obtain ⟨es, hat⟩ := Node.look_eq_directory_iff.mp hdir
          simp only [hat] at h
          split at h
          · cases h
            exact (keeps_put (Node.hasPlace_concat hdir name) hfree _).retains
          · cases h
      | taken l node =>
          have hat := at?_of_route hroute
          cases node with
          | directory => cases h
          | file m c =>
              simp only [Node.isDirectory, Node.isFile, Bool.false_eq_true, if_false, if_true] at h
              split at h
              · cases h
              · cases h
                exact retains_put_file hat
          | link | pipe =>
              simp only [Node.isDirectory, Node.isFile, Bool.false_eq_true, if_false] at h
              split at h
              · cases h
              · cases h
                exact .refl fs

theorem retains_fillFile (fs : FileSystem) (l : Location) (mode : Mode) (content : Bytes) :
    Retains fs (fs.fillFile l mode content) := by
  unfold fillFile
  split
  · rename_i hat
    exact retains_put_file hat
  · exact .refl fs

theorem retains_copyFile {result : Except IoError Unit}
    (h : fs.copyFile source target = (result, fs')) : Retains fs fs' := by
  cases result with
  | error e =>
      rw [copyFile_eq_error h]
      exact .refl fs
  | ok =>
      obtain ⟨l, node, opened, content, -, -, -, hopen, rfl⟩ := copyFile_eq_ok h
      exact (retains_openEmpty hopen).trans (retains_fillFile _ _ _ _)

/-! ## A directory that can no longer be listed -/

/-- The same files, except that the directory at `l` cannot be listed.  The
paths lead where they led. -/
structure Veiled (fs fs' : FileSystem) (paths : List Path) (l : Location) : Prop where
  superuser_eq : fs'.superuser = fs.superuser
  wellFormed : fs'.tree.WellFormed
  look : ∀ m, m ≠ l → fs'.tree.look m = fs.tree.look m
  directory : ∃ mode, fs.tree.look l = some (.directory mode)
  unreadable : ∃ mode, fs'.tree.look l = some (.directory mode) ∧ ¬ fs'.permits .read mode
  locate : ∀ p ∈ paths, ∀ d, fs'.locate p = .ok d ↔ fs.locate p = .ok d

/-- Directories that grant as much search get one as far. -/
theorem carries_of_look {mode' : Mode} (hroot : fs'.root = fs.root) (hcwd : fs'.cwd = fs.cwd)
    (hsuper : fs'.superuser = fs.superuser)
    (hlook : ∀ m, m ≠ l → fs'.tree.look m = fs.tree.look m)
    (hl : fs.tree.look l = some (.directory mode)) (hl' : fs'.tree.look l = some (.directory mode'))
    (hsearch : fs.permits .search mode → fs'.permits .search mode') : Carries fs fs' := by
  refine ⟨hroot, hcwd, fun m hs => ?_, fun m face hm => ?_⟩
  · obtain ⟨found, hm, hfound⟩ := hs
    by_cases hml : m = l
    · subst hml
      obtain rfl := Face.directory.inj (Option.some.inj (hl.symm.trans hm))
      exact ⟨mode', hl', hsearch hfound⟩
    · refine ⟨found, (hlook m hml).trans hm, ?_⟩
      rwa [permits, hsuper, ← permits]
  · by_cases hml : m = l
    · subst hml
      obtain rfl := Option.some.inj (hl.symm.trans hm)
      exact ⟨.directory mode', hl', rfl⟩
    · exact ⟨face, (hlook m hml).trans hm, rfl⟩

/-- Without the right to read it a directory cannot be listed.  All paths lead
where they led if it may still be searched. -/
theorem veiled_setMode {q : Path} {mode' : Mode} {es : Entries} (hwell : fs.tree.WellFormed)
    (hfind : fs.find true q = .ok (l, .directory mode es)) (h : fs.setMode q mode' = .ok fs')
    (hread : ¬ fs.permits .read mode')
    (hsearch : fs.permits .search mode' = fs.permits .search mode) (paths : List Path) :
    Veiled fs fs' paths l := by
  rw [setMode_of_find hfind] at h
  obtain rfl := Except.ok.inj h
  have hat := at?_of_find hfind
  have hplace : fs.tree.HasPlace l := Node.hasPlace_of_at? (by rw [hat]; rfl)
  have hlook (m : Location) : (fs.put l (.directory mode' es)).tree.look m =
      if m = l then some (.directory mode') else fs.tree.look m :=
    Node.look_put_withMode hat mode' m
  have hother (m : Location) (hm : m ≠ l) :
      (fs.put l (.directory mode' es)).tree.look m = fs.tree.look m :=
    (hlook m).trans (if_neg hm)
  have hl : fs.tree.look l = some (.directory mode) := Node.look_eq_directory_iff.mpr ⟨es, hat⟩
  have hl' := (hlook l).trans (if_pos rfl)
  -- Paths lead as far with the new mode as with the old one, and the other way round.
  have hthere : Carries fs (fs.put l (.directory mode' es)) :=
    carries_of_look rfl rfl rfl hother hl hl' fun h => hsearch.trans h
  have hback : Carries (fs.put l (.directory mode' es)) fs :=
    carries_of_look rfl rfl rfl (fun m hm => (hother m hm).symm) hl' hl
      fun h => hsearch.symm.trans h
  refine ⟨rfl, ?_, hother, ⟨mode, hl⟩, ⟨mode', hl', hread⟩,
    fun p _ d => ⟨hback.locate, hthere.locate⟩⟩
  refine hwell.put ((hwell.at? hat).withMode mode') hplace fun above name heq => ?_
  subst heq
  exact hwell.isEntryName (by rw [hl]; rfl)

end FileSystem

end Confinement
