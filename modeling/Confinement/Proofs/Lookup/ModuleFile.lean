import Confinement.Lookup
import Confinement.Proofs.FileSystem.FileName
import Confinement.Proofs.FileSystem.Listing
import Confinement.Proofs.Path.Order
import Confinement.Proofs.Text.Fields
import Confinement.Proofs.Text.Utf8

/-!
# The file of a module

A dotted name is sought in one directory below each search directory
(`moduleDirectory`).  The files there that implement it are a matter of the
listing, of the text of a file name and of what it leads to (`Implements`), and
the least of them in the order of bytes comes first
(`head?_moduleFiles_eq_some_iff`).  So the look-up finds the least file of the
first directory that has one, it finds nothing just when no directory has one
or the name has an empty segment, and the order of listings makes no difference
(`resolveModule_exact`).
-/

namespace Confinement

open FileSystem
open Confinement.Path (IsName)

variable {fs fs' : FileSystem} {name leaf : String} {suffix : Option String}
  {base directory p : Path} {directories : List Path} {file : Bytes}

/-- What some segments lead to from a directory. -/
def Path.descend (p : Path) (segments : List String) : Path :=
  segments.foldl (fun d part => d.join (.ofString part)) p

/-- The directory below `base` in which a dotted name is sought. -/
def moduleDirectory (base : Path) (name : String) : Path :=
  base.descend (Text.fields '.' name).dropLast

/-- The last segment of a dotted name. -/
def moduleLeaf (name : String) : String := (Text.fields '.' name).getLast?.getD ""

/-- A directory has a file that is called `leaf` up to its first dot and ends as
asked: an entry whose name is text and that leads to a file, be it through
links. -/
structure Implements (fs : FileSystem) (leaf : String) (suffix : Option String) (directory : Path)
    (file : Bytes) : Prop where
  lists : fs.Lists directory file
  spelled : ∃ text, Utf8.encode text = file ∧ Text.before '.' text = leaf ∧
    ∀ s ∈ suffix, s.toList <:+ text.toList
  isFile : fs.isFile (directory.child file)

/-- The least of the files in a directory that implement a module, in the order
of bytes. -/
structure ImplementsFirst (fs : FileSystem) (leaf : String) (suffix : Option String)
    (directory : Path) (file : Bytes) : Prop extends Implements fs leaf suffix directory file where
  least : ∀ other, Implements fs leaf suffix directory other → file ≤ other

/-! ## The files of one directory -/

theorem namesModule_iff : namesModule leaf suffix file ↔
    ∃ text, Utf8.encode text = file ∧ Text.before '.' text = leaf ∧
      ∀ s ∈ suffix, s.toList <:+ text.toList := by
  unfold namesModule
  constructor
  · intro h
    split at h
    · cases h
    · rename_i text htext
      rw [Bool.and_eq_true, decide_eq_true_eq] at h
      refine ⟨text, Utf8.decode?_eq_some_iff.mp htext, h.1, ?_⟩
      rintro s ⟨⟩
      exact List.isSuffixOf_iff_suffix.mp h.2
  · rintro ⟨text, rfl, hleaf, hsuffix⟩
    rw [Utf8.decode?_encode]
    simp only [hleaf, decide_true, Bool.true_and]
    split
    · exact List.isSuffixOf_iff_suffix.mpr (hsuffix _ rfl)
    · rfl

theorem mem_moduleFiles : p ∈ moduleFiles fs leaf suffix directory ↔
    ∃ file, Implements fs leaf suffix directory file ∧ p = directory.child file := by
  unfold moduleFiles
  constructor
  · intro h
    split at h
    · cases h
    · rename_i entries hlist
      obtain ⟨hmem, hfile⟩ := List.mem_filter.mp (Path.mem_sort.mp h)
      obtain ⟨entry, hentry, rfl⟩ := List.mem_map.mp hmem
      obtain ⟨hlisted, hnamed⟩ := List.mem_filter.mp hentry
      exact ⟨entry.1, ⟨⟨entries, hlist, List.mem_map_of_mem hlisted⟩, namesModule_iff.mp hnamed,
        hfile⟩, rfl⟩
  · rintro ⟨file, ⟨⟨entries, hlist, hlisted⟩, hnamed, hfile⟩, rfl⟩
    obtain ⟨entry, hentry, rfl⟩ := List.mem_map.mp hlisted
    rw [hlist]
    refine Path.mem_sort.mpr (List.mem_filter.mpr ⟨?_, hfile⟩)
    exact List.mem_map_of_mem (List.mem_filter.mpr ⟨hentry, namesModule_iff.mpr hnamed⟩)

theorem head?_moduleFiles_eq_none_iff : (moduleFiles fs leaf suffix directory).head? = none ↔
    ∀ file, ¬ Implements fs leaf suffix directory file := by
  rw [List.head?_eq_none_iff, List.eq_nil_iff_forall_not_mem]
  constructor
  · intro h file himplements
    exact h _ (mem_moduleFiles.mpr ⟨file, himplements, rfl⟩)
  · intro h p hp
    obtain ⟨file, himplements, -⟩ := mem_moduleFiles.mp hp
    exact h file himplements

theorem exists_implementsFirst_of_head?_moduleFiles
    (hnames : ∀ file, Implements fs leaf suffix directory file → IsName file)
    (hhead : (moduleFiles fs leaf suffix directory).head? = some p) :
    ∃ file, ImplementsFirst fs leaf suffix directory file ∧ p = directory.child file := by
  obtain ⟨file, himplements, rfl⟩ := mem_moduleFiles.mp (List.mem_of_mem_head? hhead)
  refine ⟨file, ⟨himplements, fun other hother => ?_⟩, rfl⟩
  -- Paths are sorted, and those of one directory stand as their names do.
  rw [← Path.precedes_child_iff (hnames _ himplements) (hnames _ hother)]
  have hmem := mem_moduleFiles.mpr ⟨other, hother, rfl⟩
  unfold moduleFiles at hhead hmem
  split at hhead
  · cases hhead
  · rename_i entries hlist
    rw [hlist] at hmem
    exact Path.precedes_of_head?_sort hhead (Path.mem_sort.mp hmem)

/-- The first file of a directory is the least one. -/
theorem head?_moduleFiles_eq_some_iff
    (hnames : ∀ file, Implements fs leaf suffix directory file → IsName file) :
    (moduleFiles fs leaf suffix directory).head? = some p ↔
      ∃ file, ImplementsFirst fs leaf suffix directory file ∧ p = directory.child file := by
  refine ⟨exists_implementsFirst_of_head?_moduleFiles hnames, ?_⟩
  rintro ⟨file, ⟨himplements, hleast⟩, rfl⟩
  -- Least files are the same: each is at most the other.
  cases hhead : (moduleFiles fs leaf suffix directory).head? with
  | none => exact absurd himplements (head?_moduleFiles_eq_none_iff.mp hhead file)
  | some q =>
      obtain ⟨file', ⟨himplements', hleast'⟩, rfl⟩ :=
        exists_implementsFirst_of_head?_moduleFiles hnames hhead
      rw [Std.le_antisymm (hleast' _ himplements) (hleast _ himplements')]

theorem Implements.isName (h : Implements fs leaf suffix directory file)
    (hwell : fs.tree.WellFormed) : IsName file :=
  (h.lists.isEntryName hwell).toIsName

theorem FileSystem.SameFiles.implements_iff (h : SameFiles fs fs') :
    Implements fs' leaf suffix directory file ↔ Implements fs leaf suffix directory file :=
  ⟨fun ⟨hlists, hspelled, hfile⟩ => ⟨h.lists_iff.mp hlists, hspelled, h.isFile_iff.mp hfile⟩,
    fun ⟨hlists, hspelled, hfile⟩ => ⟨h.lists_iff.mpr hlists, hspelled, h.isFile_iff.mpr hfile⟩⟩

theorem FileSystem.SameFiles.implementsFirst_iff (h : SameFiles fs fs') :
    ImplementsFirst fs' leaf suffix directory file ↔
      ImplementsFirst fs leaf suffix directory file := by
  constructor
  · rintro ⟨himplements, hleast⟩
    exact ⟨h.implements_iff.mp himplements, fun other ho => hleast other (h.implements_iff.mpr ho)⟩
  · rintro ⟨himplements, hleast⟩
    exact ⟨h.implements_iff.mpr himplements, fun other ho => hleast other (h.implements_iff.mp ho)⟩

theorem head?_moduleFiles_of_sameFiles (h : SameFiles fs fs') (hwell : fs.tree.WellFormed) :
    (moduleFiles fs' leaf suffix directory).head? =
      (moduleFiles fs leaf suffix directory).head? := by
  refine Option.ext fun p => ?_
  rw [head?_moduleFiles_eq_some_iff fun _ hfile => hfile.isName hwell,
    head?_moduleFiles_eq_some_iff fun _ hfile => (h.implements_iff.mp hfile).isName hwell]
  simp only [h.implementsFirst_iff]

/-! ## Directories and segments -/

theorem isName_encode {s : String} (hne : s ≠ "") (hslash : '/' ∉ s.toList)
    (hdot : s.toList.head? ≠ some '.') : IsName (Utf8.encode s) := by
  refine ⟨?_, ?_, ?_, Utf8.slash_notMem_encode hslash⟩
  · exact fun h => hne (Utf8.encode_injective h)
  · -- Both of the names that are refused begin with a dot.
    intro h
    have hs : s = "." := Utf8.encode_injective h
    exact hdot (hs ▸ by decide)
  · intro h
    have hs : s = ".." := Utf8.encode_injective h
    exact hdot (hs ▸ by decide)

theorem Path.descend_eq (p : Path) (segments : List String) :
    p.descend segments = (segments.map Utf8.encode).foldl child p := by
  rw [descend, List.foldl_map]
  rfl

theorem components_descend (p : Path) {segments : List String}
    (hsegments : ∀ segment ∈ segments, IsName (Utf8.encode segment)) :
    (p.descend segments).components =
      p.components ++ (segments.map Utf8.encode).map Path.Component.normal := by
  have hnames : ∀ name ∈ segments.map Utf8.encode, IsName name := by simpa using hsegments
  rw [Path.descend_eq, Path.components_foldl_child p hnames]

theorem components_descend_child {segments : List String}
    (hsegments : ∀ segment ∈ segments, IsName (Utf8.encode segment)) (hfile : IsName file) :
    ((base.descend segments).child file).components = base.components ++
      (segments.map Utf8.encode ++ [file]).map .normal := by
  rw [Path.components_child _ hfile, components_descend base hsegments, List.append_assoc,
    List.map_append]
  rfl

theorem isName_segment {part : String} (hslash : '/' ∉ name.toList)
    (hempty : "" ∉ Text.fields '.' name) (hpart : part ∈ (Text.fields '.' name).dropLast) :
    IsName (Utf8.encode part) := by
  have hpart := (List.dropLast_sublist _).mem hpart
  exact isName_encode (fun heq => hempty (heq ▸ hpart))
    (fun hmem => hslash (Text.mem_of_mem_fields hpart hmem))
    fun hhead => Text.sep_notMem_of_mem_fields hpart (List.mem_of_mem_head? hhead)

/-! ## The look-up -/

/-- A file decides the look-up of a dotted name: it is the least that implements
it below a search directory, and none does below those in front. -/
structure Decides (fs : FileSystem) (name : String) (suffix : Option String) (front : List Path)
    (base : Path) (file : Bytes) : Prop where
  implements : ImplementsFirst fs (moduleLeaf name) suffix (moduleDirectory base name) file
  first : ∀ b ∈ front, ∀ other,
    ¬ Implements fs (moduleLeaf name) suffix (moduleDirectory b name) other

theorem resolveModule_eq : resolveModule fs name directories suffix =
    if "" ∈ Text.fields '.' name then none
    else directories.findSome? fun base =>
      (moduleFiles fs (moduleLeaf name) suffix (moduleDirectory base name)).head? := by
  have hany : (Text.fields '.' name).any String.isEmpty ↔ "" ∈ Text.fields '.' name := by
    simp
  unfold resolveModule
  simp only [hany]
  rfl

theorem resolveModule_eq_none_iff : resolveModule fs name directories suffix = none ↔
    "" ∈ Text.fields '.' name ∨ ∀ base ∈ directories, ∀ file,
      ¬ Implements fs (moduleLeaf name) suffix (moduleDirectory base name) file := by
  rw [resolveModule_eq]
  split
  · rename_i hempty
    exact iff_of_true rfl (.inl hempty)
  · rename_i hempty
    rw [List.findSome?_eq_none_iff, or_iff_right hempty]
    exact forall₂_congr fun base _ => head?_moduleFiles_eq_none_iff

theorem exists_decides_of_resolveModule (hwell : fs.tree.WellFormed)
    (h : resolveModule fs name directories suffix = some p) : "" ∉ Text.fields '.' name ∧
      ∃ front base back file, directories = front ++ base :: back ∧
        p = (moduleDirectory base name).child file ∧ Decides fs name suffix front base file := by
  rw [resolveModule_eq] at h
  split at h
  · cases h
  · rename_i hempty
    obtain ⟨front, base, back, rfl, hhead, hfront⟩ := List.findSome?_eq_some_iff.mp h
    obtain ⟨file, himplements, rfl⟩ :=
      (head?_moduleFiles_eq_some_iff fun _ hfile => hfile.isName hwell).mp hhead
    exact ⟨hempty, front, base, back, file, rfl, rfl, himplements,
      fun b hb => head?_moduleFiles_eq_none_iff.mp (hfront b hb)⟩

/-- Where a proper name is sought in one place that has a file for it, one is
found there. -/
theorem exists_resolveModule_of_implements (hwell : fs.tree.WellFormed)
    (hempty : "" ∉ Text.fields '.' name)
    (h : Implements fs (moduleLeaf name) suffix (moduleDirectory base name) file) :
    ∃ found, resolveModule fs name [base] suffix =
        some ((moduleDirectory base name).child found) ∧
      Implements fs (moduleLeaf name) suffix (moduleDirectory base name) found := by
  cases hresolved : resolveModule fs name [base] suffix with
  | none =>
      -- One of two things can keep it from being found, and neither is so here.
      have hnone := (resolveModule_eq_none_iff.mp hresolved).resolve_left hempty
      exact absurd h (hnone base List.mem_cons_self file)
  | some g =>
      obtain ⟨-, front, b, back, found, hdirectories, rfl, hdecides⟩ :=
        exists_decides_of_resolveModule hwell hresolved
      obtain rfl : b = base := List.mem_singleton.mp (hdirectories ▸ by simp)
      exact ⟨found, rfl, hdecides.implements.toImplements⟩

/-- The look-up of a dotted name finds the least file that implements it in the
first place that has one, if there is one and the name is proper, and that in
whatever order directories list their entries.  What it finds for a name
without slashes stands below the search directory, behind the segments. -/
theorem resolveModule_exact (hwell : fs.tree.WellFormed) (name : String) (directories : List Path)
    (suffix : Option String) :
    (resolveModule fs name directories suffix = none ↔
      "" ∈ Text.fields '.' name ∨ ∀ base ∈ directories, ∀ file,
        ¬ Implements fs (moduleLeaf name) suffix (moduleDirectory base name) file) ∧
    (∀ found, resolveModule fs name directories suffix = some found →
      ∃ front base back file, directories = front ++ base :: back ∧
        found = (moduleDirectory base name).child file ∧ Decides fs name suffix front base file ∧
        ('/' ∉ name.toList → found.components = base.components ++
          ((Text.fields '.' name).dropLast.map Utf8.encode ++ [file]).map .normal)) ∧
    ∀ fs', SameFiles fs fs' →
      resolveModule fs' name directories suffix = resolveModule fs name directories suffix := by
  refine ⟨resolveModule_eq_none_iff, fun found hfound => ?_, fun fs' hsame => ?_⟩
  · obtain ⟨hempty, front, base, back, file, rfl, rfl, hdecides⟩ :=
      exists_decides_of_resolveModule hwell hfound
    exact ⟨front, base, back, file, rfl, rfl, hdecides, fun hslash =>
      components_descend_child (fun _ => isName_segment hslash hempty)
        (hdecides.implements.isName hwell)⟩
  · -- The order of the entries is lost in the sorting, so only what they are counts.
    rw [resolveModule_eq, resolveModule_eq]
    simp only [head?_moduleFiles_of_sameFiles hsame hwell]

/-- The entries of a directory with three files of one module, of which one is
missing behind its link, and an entry whose name is no text. -/
def taggedEntries : Entries := [
  (Utf8.encode "native.cpython-312.so", .file 0o755 []),
  (Utf8.encode "native.cpython-311.so", .link "../native.so"),
  (Utf8.encode "native.cpython-310.so", .link "../absent.so"),
  (Utf8.encode "native." ++ [0xFF] ++ Utf8.encode ".so", .file 0o755 [])]

/-- Two search directories, of which the first has a directory where the file
would be, as a superuser sees them. -/
def taggedHost : FileSystem where
  superuser := true
  tree := .directory 0o755 [
    (Utf8.encode "first", .directory 0o755 [
      (Utf8.encode "pkg", .directory 0o755 [(Utf8.encode "native.so", .directory 0o755 [])])]),
    (Utf8.encode "second", .directory 0o755 [
      (Utf8.encode "pkg", .directory 0o755 taggedEntries),
      (Utf8.encode "native.so", .file 0o755 [])])]

/-- The least file of the second directory is found, also if its entries are
listed the other way round. -/
theorem resolveModule_exact_tagged :
    taggedHost.tree.WellFormed ∧
    resolveModule taggedHost "pkg.native" ["/first", "/second"] (some ".so") =
      some (Path.ofString "/second/pkg/native.cpython-311.so") ∧
    resolveModule { taggedHost with
        tree := taggedHost.tree.put [Utf8.encode "second", Utf8.encode "pkg"]
          (.directory 0o755 taggedEntries.reverse) }
      "pkg.native" ["/first", "/second"] (some ".so") =
        some (Path.ofString "/second/pkg/native.cpython-311.so") ∧
    ∃ front base file, Decides taggedHost "pkg.native" (some ".so") front base file ∧
      Path.ofString "/second/pkg/native.cpython-311.so" =
        (moduleDirectory base "pkg.native").child file := by
  have hwell : taggedHost.tree.WellFormed := by decide +kernel
  have hfound : resolveModule taggedHost "pkg.native" ["/first", "/second"] (some ".so") =
      some (Path.ofString "/second/pkg/native.cpython-311.so") := by
    have hfirst : moduleFiles taggedHost "native" (some ".so") "/first/pkg" = Path.sort [] := rfl
    have hsecond : moduleFiles taggedHost "native" (some ".so") "/second/pkg" =
        Path.sort ["/second/pkg/native.cpython-312.so", "/second/pkg/native.cpython-311.so"] := rfl
    have horder : Path.precedes "/second/pkg/native.cpython-312.so"
        "/second/pkg/native.cpython-311.so" = false := by decide +kernel
    have hlookup : resolveModule taggedHost "pkg.native" ["/first", "/second"] (some ".so") =
        ["/first/pkg", "/second/pkg"].findSome? fun directory =>
          (moduleFiles taggedHost "native" (some ".so") directory).head? := rfl
    rw [hlookup]
    simp [hfirst, hsecond, Path.sort, List.mergeSort, horder]
  obtain ⟨-, hsome, horder⟩ :=
    resolveModule_exact hwell "pkg.native" ["/first", "/second"] (some ".so")
  obtain ⟨front, base, -, file, -, hchild, hdecides, -⟩ := hsome _ hfound
  refine ⟨hwell, hfound, ?_, front, base, file, hdecides, hchild⟩
  rw [horder _ (sameFiles_relist hwell rfl (List.reverse_perm _).symm), hfound]

end Confinement
