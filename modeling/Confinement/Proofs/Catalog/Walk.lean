import Confinement.Catalog
import Confinement.Proofs.FileSystem.Listing

/-!
# What a walk meets

Below the path of a directory a walk meets a node by the names that lead there
(`FileSystem.Meets`).  The directories on the way are listed, and none of them is
a link; the path itself may be one.

`meetings` has a bound on the depth, which a path exhausts only when it is too
long to be listed.  So the walk meets what there is to meet
(`mem_meetings_iff`).  What is met at a place depends on what shows on the way
there and on nothing else (`FileSystem.Meets.transfer`).
-/

namespace Confinement

open Confinement.Path (IsName)

namespace FileSystem

variable {fs fs' : FileSystem} {p : Path} {d : Location} {name : Bytes} {names : List Bytes}
  {node : Node}

/-- A directory that this process may list. -/
def Readable (fs : FileSystem) (l : Location) : Prop :=
  ∃ mode, fs.tree.look l = some (.directory mode) ∧ fs.permits .read mode

/-- The listing of the directory that a path names shows a node. -/
def Shows (fs : FileSystem) (p : Path) (name : Bytes) (node : Node) : Prop :=
  ∃ entries, fs.list p = .ok entries ∧ (name, node) ∈ entries

/-- A walk below the path of a directory meets a node by the names that lead to
it. -/
inductive Meets (fs : FileSystem) : Path → List Bytes → Node → Prop
  | entry {p : Path} {name : Bytes} {node : Node} (shows : fs.Shows p name node) :
      Meets fs p [name] node
  | deeper {p : Path} {name : Bytes} {names : List Bytes} {child node : Node}
      (shows : fs.Shows p name child) (directory : child.isDirectory)
      (rest : Meets fs (p.child name) names node) : Meets fs p (name :: names) node

/-! ## Listings -/

theorem shows_iff (hwell : fs.tree.WellFormed) : fs.Shows p name node ↔
    ∃ d, fs.locate p = .ok d ∧ fs.Readable d ∧ fs.tree.at? (d ++ [name]) = some node := by
  constructor
  · rintro ⟨es, hlist, hmem⟩
    obtain ⟨d, mode, hfind, hread⟩ := list_eq_ok_iff.mp hlist
    have hat := at?_of_find hfind
    refine ⟨d, locate_eq_ok_iff.mpr ⟨_, hfind⟩, ⟨mode, ?_, hread⟩, ?_⟩
    · exact Node.look_eq_directory_iff.mpr ⟨es, hat⟩
    · rw [← Node.lookup_of_at? hat]
      exact (Node.lookup_eq_some_iff_mem (hwell.at? hat)).mpr hmem
  · rintro ⟨d, hlocate, ⟨mode, hlook, hread⟩, hentry⟩
    obtain ⟨found, hfind⟩ := locate_eq_ok_iff.mp hlocate
    obtain ⟨es, hat⟩ := Node.look_eq_directory_iff.mp hlook
    obtain rfl : found = .directory mode es := Option.some.inj ((at?_of_find hfind).symm.trans hat)
    refine ⟨es, list_eq_ok_iff.mpr ⟨d, mode, hfind, hread⟩, ?_⟩
    exact Node.mem_of_lookup ((Node.lookup_of_at? hat name).trans hentry)

theorem Shows.at? (h : fs.Shows p name node) (hwell : fs.tree.WellFormed)
    (hp : fs.locate p = .ok d) : fs.tree.at? (d ++ [name]) = some node := by
  obtain ⟨d', hd', -, hat⟩ := (shows_iff hwell).mp h
  rwa [Except.ok.inj (hp.symm.trans hd')]

theorem Shows.isEntryName (h : fs.Shows p name node) (hwell : fs.tree.WellFormed) :
    Node.IsEntryName name := by
  obtain ⟨d, -, -, hat⟩ := (shows_iff hwell).mp h
  exact hwell.isEntryName (l := d) (by rw [Node.look, hat]; rfl)

theorem Shows.isDirectory (h : fs.Shows p name node) : fs.isDirectory p := by
  obtain ⟨es, hlist, -⟩ := h
  obtain ⟨d, mode, hfind, -⟩ := list_eq_ok_iff.mp hlist
  exact isDirectory_iff.mpr ⟨d, mode, es, hfind⟩

theorem Shows.length_lt (h : fs.Shows p name node) : p.length < pathLimit := by
  obtain ⟨d, mode, es, hfind⟩ := isDirectory_iff.mp h.isDirectory
  exact (find_true_eq_ok_iff.mp hfind).1.length_lt

/-! ## Walks -/

theorem Meets.isDirectory (h : fs.Meets p names node) : fs.isDirectory p := by
  cases h with
  | entry shows => exact shows.isDirectory
  | deeper shows => exact shows.isDirectory

theorem Meets.exists_locate (h : fs.Meets p names node) : ∃ d, fs.locate p = .ok d := by
  obtain ⟨d, mode, es, hfind⟩ := isDirectory_iff.mp h.isDirectory
  exact ⟨d, locate_eq_ok_iff.mpr ⟨_, hfind⟩⟩

/-- A directory that a child of a path leads to stands behind the entry of that
name, where the path leads. -/
theorem names_child_of_locate (hp : fs.locate p = .ok d) (hname : IsName name)
    (hchild : fs.isDirectory (p.child name)) : fs.Names (p.child name) d name := by
  obtain ⟨found, hfind⟩ := locate_eq_ok_iff.mp hp
  obtain ⟨-, hleads, -⟩ := find_true_eq_ok_iff.mp hfind
  obtain ⟨l, mode, es, hfind'⟩ := isDirectory_iff.mp hchild
  exact hleads.names_of_find_child hname hfind'

theorem Names.locate_child (h : fs.Names (p.child name) d name) (hname : IsName name)
    (hat : fs.tree.at? (d ++ [name]) = some node) (hnode : node.isDirectory) :
    fs.locate (p.child name) = .ok (d ++ [name]) := by
  refine locate_eq_ok_iff.mpr ⟨node, h.find_true hat ?_ ?_⟩
  · rintro target rfl
    cases hnode
  · intro hslash
    rw [Path.endsWithSlash_child p hname] at hslash
    cases hslash

/-- The node that a walk meets, and all that it lists on the way, stand where the
names lead. -/
theorem Meets.places (h : fs.Meets p names node) (hwell : fs.tree.WellFormed)
    (hp : fs.locate p = .ok d) : fs.tree.at? (d ++ names) = some node ∧
      ∀ before, before <+: names → before ≠ names → fs.Readable (d ++ before) := by
  induction h generalizing d with
  | entry shows =>
      obtain ⟨d', hp', hread, hat⟩ := (shows_iff hwell).mp shows
      obtain rfl : d = d' := Except.ok.inj (hp.symm.trans hp')
      refine ⟨hat, fun before hbefore hne => ?_⟩
      rcases List.prefix_cons_iff.mp hbefore with rfl | ⟨t, rfl, ht⟩
      · rwa [List.append_nil]
      · exact absurd (by rw [List.prefix_nil.mp ht]) hne
  | @deeper p name names child node shows directory rest ih =>
      obtain ⟨d', hp', hread, hat⟩ := (shows_iff hwell).mp shows
      obtain rfl : d = d' := Except.ok.inj (hp.symm.trans hp')
      have hname := (shows.isEntryName hwell).toIsName
      -- The walk goes on from the path of the child, which leads to the entry just listed.
      have hchild : fs.locate (p.child name) = .ok (d ++ [name]) :=
        (names_child_of_locate hp hname rest.isDirectory).locate_child hname hat directory
      obtain ⟨hnode, hbefores⟩ := ih hchild
      refine ⟨by rwa [List.append_assoc] at hnode, fun before hbefore hne => ?_⟩
      rcases List.prefix_cons_iff.mp hbefore with rfl | ⟨t, rfl, ht⟩
      · rwa [List.append_nil]
      · have hread' := hbefores t ht fun heq => hne (by rw [heq])
        rwa [List.append_assoc] at hread'

/-! ## The same walk elsewhere -/

theorem Shows.transfer (h : fs.Shows p name node) (hwell : fs.tree.WellFormed)
    (hwell' : fs'.tree.WellFormed) (hsuper : fs'.superuser = fs.superuser)
    (hp : fs.locate p = .ok d) (hp' : fs'.locate p = .ok d)
    (hhere : fs'.tree.look d = fs.tree.look d)
    (hthere : fs'.tree.look (d ++ [name]) = fs.tree.look (d ++ [name])) :
    ∃ node', fs'.Shows p name node' ∧ node'.face = node.face := by
  obtain ⟨d', hd', ⟨mode, hmode, hread⟩, hat⟩ := (shows_iff hwell).mp h
  obtain rfl : d = d' := Except.ok.inj (hp.symm.trans hd')
  have hface : fs.tree.look (d ++ [name]) = some node.face := by rw [Node.look, hat]; rfl
  obtain ⟨node', hat', hface'⟩ := Option.map_eq_some_iff.mp (hthere.trans hface)
  have hread' : fs'.Readable d := by
    refine ⟨mode, hhere.trans hmode, ?_⟩
    rwa [permits, hsuper, ← permits]
  exact ⟨node', (shows_iff hwell').mpr ⟨d, hp', hread', hat'⟩, hface'⟩

/-- A walk meets what it met wherever the same shows on the way there. -/
theorem Meets.transfer (h : fs.Meets p names node) (hwell : fs.tree.WellFormed)
    (hwell' : fs'.tree.WellFormed) (hsuper : fs'.superuser = fs.superuser)
    (hp : fs.locate p = .ok d) (hp' : fs'.locate p = .ok d)
    (hlook : ∀ before, before <+: names →
      fs'.tree.look (d ++ before) = fs.tree.look (d ++ before)) :
    ∃ node', fs'.Meets p names node' ∧ node'.face = node.face := by
  have hhere : fs'.tree.look d = fs.tree.look d := by
    have hnil := hlook [] List.nil_prefix
    rwa [List.append_nil] at hnil
  induction h generalizing d with
  | entry shows =>
      obtain ⟨node', hshows', hface⟩ :=
        shows.transfer hwell hwell' hsuper hp hp' hhere (hlook _ (List.prefix_refl _))
      exact ⟨node', .entry hshows', hface⟩
  | @deeper p name names child node shows directory rest ih =>
      have hthere := hlook [name] (List.cons_prefix_cons.mpr ⟨rfl, List.nil_prefix⟩)
      obtain ⟨child', hshows', hface⟩ := shows.transfer hwell hwell' hsuper hp hp' hhere hthere
      have directory' : child'.isDirectory := by rwa [Node.isDirectory_eq_of_face hface]
      have hname := shows.isEntryName hwell
      have hnames := names_child_of_locate hp hname.toIsName rest.isDirectory
      -- The directory is entered from the other side, too.
      have hnames' : fs'.Names (p.child name) d name := by
        obtain ⟨found, hfind'⟩ := locate_eq_ok_iff.mp hp'
        obtain ⟨-, hleads', -⟩ := find_true_eq_ok_iff.mp hfind'
        obtain ⟨mode, hmode, hsearch⟩ := hnames.enters.searchable
        refine hleads'.names_child hname.toIsName hname.length_le ⟨mode, hhere.trans hmode, ?_⟩
          hnames.fits
        rwa [permits, hsuper, ← permits]
      have hchild := hnames.locate_child hname.toIsName (shows.at? hwell hp) directory
      have hchild' := hnames'.locate_child hname.toIsName (hshows'.at? hwell' hp') directory'
      obtain ⟨node', hmeets', hnode⟩ := ih hchild hchild' (fun before hbefore => by
        rw [List.append_assoc]
        exact hlook (name :: before) (List.cons_prefix_cons.mpr ⟨rfl, hbefore⟩)) hthere
      exact ⟨node', .deeper hshows' directory' hmeets', hnode⟩

end FileSystem

/-! ## Meetings -/

open FileSystem

section

variable {fs : FileSystem} {p path : Path} {names : List Bytes} {node : Node} {depth : Nat}

theorem mem_meetingsBelow_succ : .entry path node ∈ meetingsBelow fs (depth + 1) p ↔
    ∃ name child, fs.Shows p name child ∧ (path = p.child name ∧ node = child ∨
      child.isDirectory ∧ .entry path node ∈ meetingsBelow fs depth (p.child name)) := by
  rw [meetingsBelow]
  cases hlist : fs.list p with
  | error e => simp [Shows, hlist]
  | ok entries =>
      simp only [Shows, hlist, Except.ok.injEq, exists_eq_left', List.mem_flatMap, Prod.exists]
      refine exists₂_congr fun name child => and_congr_right fun _ => ?_
      rw [List.mem_append, List.mem_singleton, Meeting.entry.injEq, or_comm]
      by_cases hdir : child.isDirectory <;> simp [hdir]

/-- What a bounded walk meets is there. -/
theorem exists_meets_of_mem_meetingsBelow (h : .entry path node ∈ meetingsBelow fs depth p) :
    ∃ names, fs.Meets p names node ∧ path = names.foldl Path.child p := by
  induction depth generalizing p with
  | zero => cases h
  | succ depth ih =>
      obtain ⟨name, child, hshows, ⟨rfl, rfl⟩ | ⟨hdir, hmem⟩⟩ := mem_meetingsBelow_succ.mp h
      · exact ⟨[name], .entry hshows, rfl⟩
      · obtain ⟨names, hmeets, hpath⟩ := ih hmem
        exact ⟨name :: names, .deeper hshows hdir hmeets, hpath⟩

/-- A walk is not cut short: paths grow with every step down, and those beyond
the limit are not listed. -/
theorem FileSystem.Meets.mem_meetingsBelow (h : fs.Meets p names node) (hwell : fs.tree.WellFormed)
    (hdepth : pathLimit ≤ depth + p.length) :
    .entry (names.foldl Path.child p) node ∈ meetingsBelow fs depth p := by
  induction h generalizing depth with
  | @entry p name node shows =>
      have hlt := shows.length_lt
      obtain ⟨depth, rfl⟩ : ∃ k, depth = k + 1 := ⟨depth - 1, by omega⟩
      exact mem_meetingsBelow_succ.mpr ⟨name, node, shows, .inl ⟨rfl, rfl⟩⟩
  | @deeper p name names child node shows directory rest ih =>
      have hlt := shows.length_lt
      have hlonger := Path.length_child_lt p (shows.isEntryName hwell).toIsName
      obtain ⟨depth, rfl⟩ : ∃ k, depth = k + 1 := ⟨depth - 1, by omega⟩
      exact mem_meetingsBelow_succ.mpr ⟨name, child, shows, .inr ⟨directory, ih (by omega)⟩⟩

theorem mem_meetingsBelow_iff (hwell : fs.tree.WellFormed) :
    .entry path node ∈ meetingsBelow fs pathLimit p ↔
      ∃ names, fs.Meets p names node ∧ path = names.foldl Path.child p := by
  refine ⟨exists_meets_of_mem_meetingsBelow, ?_⟩
  rintro ⟨names, hmeets, rfl⟩
  exact hmeets.mem_meetingsBelow hwell (Nat.le_add_right _ _)

theorem exists_meetings_eq_failed {e : IoError} (hstat : fs.stat p = .error e) :
    ∃ e, meetings fs p = [.failed p e] := by
  unfold meetings
  split
  · exact ⟨_, rfl⟩
  · rw [hstat]
    exact ⟨_, rfl⟩
  · rename_i hplain hlstat
    obtain ⟨l, hfind⟩ := exists_find_of_lstat hlstat hplain
    rw [stat_eq_ok_iff.mpr ⟨l, hfind⟩] at hstat
    cases hstat

/-- A walk meets the path that it starts from, and what is below it. -/
theorem meetings_perm {found : Node} (hstat : fs.stat p = .ok found) :
    ∃ seen, fs.lstat p = .ok seen ∧ (meetings fs p).Perm
      (.entry p seen :: if found.isDirectory then meetingsBelow fs pathLimit p else []) := by
  obtain ⟨l, hfind⟩ := stat_eq_ok_iff.mp hstat
  unfold meetings
  rcases fs.find_false_eq_or p with hsame | ⟨x, target, hlink⟩
  · have hlstat := lstat_eq_ok_iff.mpr ⟨l, hsame.trans hfind⟩
    refine ⟨found, hlstat, ?_⟩
    rw [hlstat]
    cases found with
    | link target => simp [hstat]
    | file | pipe | directory => exact List.perm_append_comm
  · have hlstat := lstat_eq_ok_iff.mpr ⟨x, hlink⟩
    refine ⟨_, hlstat, ?_⟩
    rw [hlstat]
    simp only [hstat]
    exact List.Perm.refl _

theorem FileSystem.Meets.exists_stat (h : fs.Meets p names node) :
    ∃ found, fs.stat p = .ok found ∧ found.isDirectory := by
  obtain ⟨l, mode, es, hfind⟩ := isDirectory_iff.mp h.isDirectory
  exact ⟨_, stat_eq_ok_iff.mpr ⟨l, hfind⟩, rfl⟩

/-- A walk meets the path that it starts from, if that leads anywhere, and all
that there is to meet below it. -/
theorem mem_meetings_iff (hwell : fs.tree.WellFormed) : .entry path node ∈ meetings fs p ↔
    (path = p ∧ fs.lstat p = .ok node ∧ ∃ found, fs.stat p = .ok found) ∨
      ∃ names, fs.Meets p names node ∧ path = names.foldl Path.child p := by
  cases hstat : fs.stat p with
  | error e =>
      obtain ⟨e, hmeetings⟩ := exists_meetings_eq_failed hstat
      -- Whoever meets something has seen the directory that the walk begins in.
      have hnone : ¬ ∃ names, fs.Meets p names node ∧ path = names.foldl Path.child p := by
        rintro ⟨names, hmeets, -⟩
        obtain ⟨found, hstat', -⟩ := hmeets.exists_stat
        rw [hstat] at hstat'
        cases hstat'
      simp [hmeetings, hnone]
  | ok found =>
      obtain ⟨seen, hlstat, hperm⟩ := meetings_perm hstat
      have hbelow : .entry path node ∈
          (if found.isDirectory then meetingsBelow fs pathLimit p else []) ↔
            ∃ names, fs.Meets p names node ∧ path = names.foldl Path.child p := by
        split
        · exact mem_meetingsBelow_iff hwell
        · rename_i hdir
          refine iff_of_false List.not_mem_nil ?_
          rintro ⟨names, hmeets, -⟩
          obtain ⟨found', hstat', hdir'⟩ := hmeets.exists_stat
          rw [hstat] at hstat'
          exact hdir (Except.ok.inj hstat' ▸ hdir')
      rw [hperm.mem_iff, List.mem_cons, hbelow]
      simp [hlstat, eq_comm]

end

end Confinement
