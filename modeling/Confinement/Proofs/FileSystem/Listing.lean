import Confinement.Proofs.FileSystem.Finding

/-!
# Listings

A path lists the names in the directory that it leads to, where that may be
read (`FileSystem.Lists`).  In which order a listing shows them is accidental:
file systems with the same files at the same locations list the same names
(`SameFiles.lists_iff`), and the entries of a directory can be put in any order
(`sameFiles_relist`).
-/

namespace Confinement

namespace FileSystem

variable {fs fs' : FileSystem} {p : Path} {l : Location} {name : Bytes} {mode : Mode}
  {es es' : Entries}

/-- The directory that a path names can be listed and has an entry `name`. -/
def Lists (fs : FileSystem) (p : Path) (name : Bytes) : Prop :=
  ∃ entries, fs.list p = .ok entries ∧ name ∈ entries.map Prod.fst

theorem lists_iff : fs.Lists p name ↔ ∃ l mode es, fs.find true p = .ok (l, .directory mode es) ∧
    fs.permits .read mode ∧ (fs.tree.look (l ++ [name])).isSome := by
  have hlook {l mode es} (hfind : fs.find true p = .ok (l, .directory mode es)) :
      (fs.tree.look (l ++ [name])).isSome ↔ name ∈ es.map Prod.fst := by
    rw [Node.look, Option.isSome_map, ← Node.lookup_of_at? (at?_of_find hfind),
      List.lookup_isSome_iff, List.mem_map]
    exact exists_congr fun e => and_congr_right fun _ => beq_iff_eq.trans eq_comm
  constructor
  · rintro ⟨es, hlist, hname⟩
    obtain ⟨l, mode, hfind, hread⟩ := list_eq_ok_iff.mp hlist
    exact ⟨l, mode, es, hfind, hread, (hlook hfind).mpr hname⟩
  · rintro ⟨l, mode, es, hfind, hread, hsome⟩
    exact ⟨es, list_eq_ok_iff.mpr ⟨l, mode, hfind, hread⟩, (hlook hfind).mp hsome⟩

theorem Lists.isEntryName (h : fs.Lists p name) (hwell : fs.tree.WellFormed) :
    Node.IsEntryName name := by
  obtain ⟨l, mode, es, -, -, hsome⟩ := lists_iff.mp h
  exact hwell.isEntryName hsome

theorem Keeps.lists (h : Keeps fs fs') (hlists : fs.Lists p name) : fs'.Lists p name := by
  obtain ⟨l, mode, es, hfind, hread, hsome⟩ := lists_iff.mp hlists
  obtain ⟨node, hfind', hface⟩ := h.find hfind
  obtain ⟨face, hlook⟩ := Option.isSome_iff_exists.mp hsome
  cases node with
  | directory mode' es' =>
      obtain rfl := Face.directory.inj hface
      refine lists_iff.mpr ⟨l, mode', es', hfind', by rw [h.permits_eq, hread], ?_⟩
      rw [h.look _ _ hlook]
      rfl
  | file | link | pipe => cases hface

theorem Keeps.isFile (h : Keeps fs fs') (hfile : fs.isFile p) : fs'.isFile p := by
  obtain ⟨l, mode, content, hfind⟩ := isFile_iff.mp hfile
  obtain ⟨node, hfind', hface⟩ := h.find hfind
  cases node with
  | file mode' content' => exact isFile_iff.mpr ⟨l, mode', content', hfind'⟩
  | directory | link | pipe => cases hface

/-- Where a directory is listed, the files seen through its path are. -/
theorem exists_lists_of_isFile_child (hname : Path.IsName name) (hp : p.bytes ≠ [])
    (hfile : fs.isFile (p.child name)) :
    fs.isDirectory p ∧ ∀ es, fs.list p = .ok es → fs.Lists p name := by
  obtain ⟨l, mode, content, hfind⟩ := isFile_iff.mp hfile
  obtain ⟨d, hleads, hnames, hsome⟩ := exists_names_of_find_child hname hfind
  obtain ⟨mode', hlook, -⟩ := hnames.enters.searchable
  obtain ⟨between, -, hbytes⟩ := Path.exists_join_bytes_eq p hname.not_isAbsolute
  rw [← Path.child, List.append_assoc] at hbytes
  have hdir := isDirectory_of_leads (hnames.fits.of_bytes_eq hp hbytes) hleads hlook
    fun _ => hnames.enters.searchable
  refine ⟨hdir, fun es hlist => ?_⟩
  obtain ⟨d', mode'', hfind', hread⟩ := list_eq_ok_iff.mp hlist
  obtain ⟨-, hleads', -, -⟩ := find_true_eq_ok_iff.mp hfind'
  obtain rfl := hleads.unique hleads'
  exact lists_iff.mpr ⟨_, _, _, hfind', hread, hsome⟩

theorem exists_list_of_superuser (hsuper : fs.superuser) (hdir : fs.isDirectory p) :
    ∃ entries, fs.list p = .ok entries := by
  obtain ⟨l, mode, es, hfind⟩ := isDirectory_iff.mp hdir
  exact ⟨es, list_eq_ok_iff.mpr ⟨l, mode, hfind, by rw [permits, hsuper, Bool.true_or]⟩⟩

/-! ## The order of entries -/

/-- The same files for the same process.  All that can differ is the order in
which a directory has its entries. -/
structure SameFiles (fs fs' : FileSystem) : Prop where
  root_eq : fs'.root = fs.root
  cwd_eq : fs'.cwd = fs.cwd
  superuser_eq : fs'.superuser = fs.superuser
  look : ∀ l, fs'.tree.look l = fs.tree.look l

theorem SameFiles.keeps (h : SameFiles fs fs') : Keeps fs fs' :=
  ⟨h.root_eq, h.cwd_eq, h.superuser_eq, fun l _ hl => (h.look l).trans hl⟩

theorem SameFiles.symm (h : SameFiles fs fs') : SameFiles fs' fs :=
  ⟨h.root_eq.symm, h.cwd_eq.symm, h.superuser_eq.symm, fun l => (h.look l).symm⟩

theorem SameFiles.lists_iff (h : SameFiles fs fs') : fs'.Lists p name ↔ fs.Lists p name :=
  ⟨h.symm.keeps.lists, h.keeps.lists⟩

theorem SameFiles.isFile_iff (h : SameFiles fs fs') : fs'.isFile p ↔ fs.isFile p :=
  ⟨h.symm.keeps.isFile, h.keeps.isFile⟩

/-- The entries of any one directory can be put in another order. -/
theorem sameFiles_relist (hwell : fs.tree.WellFormed)
    (hat : fs.tree.at? l = some (.directory mode es)) (hperm : es.Perm es') :
    SameFiles fs { fs with tree := fs.tree.put l (.directory mode es') } := by
  refine ⟨rfl, rfl, rfl, fun m => ?_⟩
  rw [Node.look_put (Node.hasPlace_of_at? (by rw [hat]; rfl))]
  split
  · rename_i hprefix
    obtain ⟨rest, rfl⟩ := hprefix
    rw [List.drop_left, Node.look_append hat]
    cases rest with
    | nil => rfl
    | cons name rest =>
        -- Each name is there once, so the order makes no difference to a look-up.
        have hlookup : es'.lookup name = es.lookup name := by
          have hes := hwell.at? hat
          have hes' : (Node.directory mode es').WellFormed := by
            cases hes with
            | directory _ nodup names nodes =>
                exact .directory mode ((hperm.map _).nodup_iff.mp nodup)
                  (fun e he => names e (hperm.mem_iff.mpr he))
                  fun e he => nodes e (hperm.mem_iff.mpr he)
          refine Option.ext fun node => ?_
          rw [Node.lookup_eq_some_iff_mem hes', Node.lookup_eq_some_iff_mem hes, hperm.mem_iff]
        rw [Node.look, Node.at?, Node.entries, hlookup]
        rfl
  · rfl

end FileSystem

end Confinement
