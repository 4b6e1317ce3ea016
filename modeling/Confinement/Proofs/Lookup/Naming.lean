import Confinement.Proofs.Catalog.Marker

/-!
# Naming and finding

A file below a search directory has a dotted name, and a dotted name leads to a
file.  Where no marker is among the segments, the name of the file that a
look-up finds is the name that was looked up, and the name of a file leads into
the directory of the file, to one with the same name up to the first dot
(`extensionName?_resolveModule`).

The two meet in `extensionName?_descend_child`: segments and the name of a file,
joined to a directory, are read off the path again.
-/

namespace Confinement

open FileSystem
open Confinement.Path (IsName)

variable {fs : FileSystem} {name x : String} {suffix : Option String} {b f : Path}
  {segments : List String}

/-- No marker of the places where extensions are installed. -/
def IsUnmarked (segment : String) : Prop := segment ≠ thirdPartyMarker ∧ segment ≠ builtinMarker

instance (segment : String) : Decidable (IsUnmarked segment) := inferInstanceAs (Decidable (_ ∧ _))

/-- Segments without a marker spell the name, the last one up to its first
dot. -/
theorem extensionName?_descend_child (hsegments : ∀ s ∈ segments, IsName (Utf8.encode s))
    (hx : IsName (Utf8.encode x)) (hunmarked : ∀ s ∈ segments ++ [x], IsUnmarked s)
    (hleaf : Text.before '.' x ≠ "") :
    extensionName? b ((b.descend segments).child (Utf8.encode x)) =
      some (String.intercalate "." (segments ++ [Text.before '.' x])) := by
  have hpath : (b.descend segments).child (Utf8.encode x) = b.descend (segments ++ [x]) := by
    rw [Path.descend, Path.descend, List.foldl_append]
    rfl
  have hnames : ∀ s ∈ segments ++ [x], IsName (Utf8.encode s) := by
    intro s hs
    rcases List.mem_append.mp hs with hs | hs
    · exact hsegments s hs
    · exact List.mem_singleton.mp hs ▸ hx
  -- Without a marker all the segments tell the name.
  have htelling : Telling (segments ++ [x]) (segments ++ [x]) :=
    .all (fun hmem => (hunmarked _ hmem).1 rfl) fun hmem => (hunmarked _ hmem).2 rfl
  rw [hpath, extensionName?_descend b hnames, htelling.telling_eq]
  simp [dottedName?, hleaf]

/-! ## From a name to a file and back -/

theorem dropLast_concat_moduleLeaf (name : String) :
    (Text.fields '.' name).dropLast ++ [moduleLeaf name] = Text.fields '.' name := by
  have hne := Text.fields_ne_nil '.' name
  rw [moduleLeaf, List.getLast?_eq_some_getLast hne, Option.getD_some, List.dropLast_concat_getLast]

theorem moduleLeaf_mem (name : String) : moduleLeaf name ∈ Text.fields '.' name :=
  dropLast_concat_moduleLeaf name ▸ List.mem_append_right _ List.mem_cons_self

/-- A marker has no dot, so it is the same up to the first dot. -/
theorem isUnmarked_of_before (h : IsUnmarked (Text.before '.' x)) : IsUnmarked x := by
  constructor
  · rintro rfl
    exact h.1 (by decide)
  · rintro rfl
    exact h.2 (by decide)

/-- What is found for a name has that name. -/
theorem extensionName?_of_resolveModule (hwell : fs.tree.WellFormed) (hslash : '/' ∉ name.toList)
    (hunmarked : ∀ segment ∈ Text.fields '.' name, IsUnmarked segment)
    (hfound : resolveModule fs name [b] suffix = some f) : extensionName? b f = some name := by
  obtain ⟨hempty, front, base, back, file, hdirectories, rfl, hdecides⟩ :=
    exists_decides_of_resolveModule hwell hfound
  -- With a single search directory the file was found in that one.
  obtain rfl : base = b := List.mem_singleton.mp (hdirectories ▸ by simp)
  obtain ⟨text, rfl, hleaf, -⟩ := hdecides.implements.spelled
  have hmem := moduleLeaf_mem name
  rw [moduleDirectory, extensionName?_descend_child (fun _ => isName_segment hslash hempty)
    (hdecides.implements.isName hwell), hleaf, dropLast_concat_moduleLeaf]
  · exact congrArg some (Text.intercalate_fields '.' name)
  · intro segment hsegment
    rcases List.mem_append.mp hsegment with hsegment | hsegment
    · exact hunmarked _ ((List.dropLast_sublist _).mem hsegment)
    · obtain rfl := List.mem_singleton.mp hsegment
      exact isUnmarked_of_before (hleaf ▸ hunmarked _ hmem)
  · rw [hleaf]
    exact fun heq => hempty (heq ▸ hmem)

/-! ## From a file to a name and back -/

/-- What can stand between a search directory and the file of an extension. -/
structure IsPackage (segment : String) : Prop where
  ne_empty : segment ≠ ""
  slash_notMem : '/' ∉ segment.toList
  dot_notMem : '.' ∉ segment.toList
  unmarked : IsUnmarked segment

/-- What can be the name of the file of an extension. -/
structure IsExtensionFile (x : String) : Prop where
  ne_empty : x ≠ ""
  slash_notMem : '/' ∉ x.toList
  head_ne_dot : x.toList.head? ≠ some '.'
  unmarked : IsUnmarked x

theorem IsPackage.isName {segment : String} (h : IsPackage segment) :
    IsName (Utf8.encode segment) :=
  isName_encode h.ne_empty h.slash_notMem fun hhead => h.dot_notMem (List.mem_of_mem_head? hhead)

theorem IsExtensionFile.isName (h : IsExtensionFile x) : IsName (Utf8.encode x) :=
  isName_encode h.ne_empty h.slash_notMem h.head_ne_dot

theorem IsExtensionFile.before_ne_empty (h : IsExtensionFile x) : Text.before '.' x ≠ "" := by
  obtain ⟨c, cs, hcs⟩ := List.exists_cons_of_ne_nil (String.toList_eq_nil_iff.not.mpr h.ne_empty)
  have hc : (c != '.') = true := by
    have hhead := h.head_ne_dot
    rw [hcs, List.head?_cons] at hhead
    simpa using fun heq => hhead (congrArg some heq)
  intro heq
  rw [Text.before, String.ofList_eq_empty_iff, hcs] at heq
  simp [hc] at heq

theorem fields_dottedName (hsegments : ∀ segment ∈ segments, IsPackage segment) (x : String) :
    Text.fields '.' (String.intercalate "." (segments ++ [Text.before '.' x])) =
      segments ++ [Text.before '.' x] := by
  refine Text.fields_intercalate (by simp) fun part hpart => ?_
  rcases List.mem_append.mp hpart with hpart | hpart
  · exact (hsegments part hpart).dot_notMem
  · exact List.mem_singleton.mp hpart ▸ Text.sep_notMem_before '.' x

/-- The name of a file leads into its directory. -/
theorem exists_resolveModule_of_isFile (hwell : fs.tree.WellFormed)
    (hlist : ∀ p, fs.isDirectory p → ∃ entries, fs.list p = .ok entries) (hb : b.bytes ≠ [])
    (hsegments : ∀ segment ∈ segments, IsPackage segment) (hx : IsExtensionFile x) {s : String}
    (hsuffix : s.toList <:+ x.toList)
    (hfile : fs.isFile ((b.descend segments).child (Utf8.encode x))) :
    ∃ n, extensionName? b ((b.descend segments).child (Utf8.encode x)) = some n ∧
      ∃ y, Text.before '.' y = Text.before '.' x ∧ resolveModule fs n [b] (some s) =
        some ((b.descend segments).child (Utf8.encode y)) := by
  have hname := extensionName?_descend_child (b := b) (fun s hs => (hsegments s hs).isName)
    hx.isName (fun s hs => ?_) hx.before_ne_empty
  swap
  · rcases List.mem_append.mp hs with hs | hs
    · exact (hsegments s hs).unmarked
    · exact List.mem_singleton.mp hs ▸ hx.unmarked
  refine ⟨_, hname, ?_⟩
  have hfields := fields_dottedName hsegments x
  -- All that matters of the name are its fields.
  generalize String.intercalate "." (segments ++ [Text.before '.' x]) = n at hfields
  have hdirectory : moduleDirectory b n = b.descend segments := by
    rw [moduleDirectory, hfields, List.dropLast_concat]
  have hleaf : moduleLeaf n = Text.before '.' x := by
    rw [moduleLeaf, hfields, List.getLast?_concat, Option.getD_some]
  have himplements :
      Implements fs (moduleLeaf n) (some s) (moduleDirectory b n) (Utf8.encode x) := by
    have hnames : ∀ segment ∈ segments.map Utf8.encode, IsName segment := by
      simpa using fun segment hsegment => (hsegments segment hsegment).isName
    obtain ⟨rest, hrest⟩ := Path.exists_foldl_child_bytes_eq b hnames
    rw [← Path.descend_eq] at hrest
    obtain ⟨hdir, hlists⟩ := exists_lists_of_isFile_child hx.isName (by simp [hrest, hb]) hfile
    obtain ⟨entries, hentries⟩ := hlist _ hdir
    rw [hdirectory, hleaf]
    refine ⟨hlists entries hentries, ⟨x, rfl, rfl, ?_⟩, hfile⟩
    rintro s ⟨⟩
    exact hsuffix
  have hproper : "" ∉ Text.fields '.' n := by
    rw [hfields, List.mem_append, List.mem_singleton]
    rintro (hempty | hempty)
    · exact absurd rfl (hsegments _ hempty).ne_empty
    · exact absurd hempty.symm hx.before_ne_empty
  -- The file itself would do, so something is found.
  obtain ⟨found, hresolved, hfound⟩ := exists_resolveModule_of_implements hwell hproper himplements
  obtain ⟨y, rfl, hy, -⟩ := hfound.spelled
  exact ⟨y, hy.trans hleaf, by rw [hresolved, hdirectory]⟩

/-- Naming and finding are inverse to each other where no marker is in the
way. -/
theorem extensionName?_resolveModule (hwell : fs.tree.WellFormed)
    (hlist : ∀ p, fs.isDirectory p → ∃ entries, fs.list p = .ok entries) (hb : b.bytes ≠ []) :
    (∀ name suffix f, '/' ∉ name.toList →
      (∀ segment ∈ Text.fields '.' name, IsUnmarked segment) →
      resolveModule fs name [b] suffix = some f → extensionName? b f = some name) ∧
    ∀ segments x s, (∀ segment ∈ segments, IsPackage segment) → IsExtensionFile x →
      s.toList <:+ x.toList → fs.isFile ((b.descend segments).child (Utf8.encode x)) →
      ∃ n, extensionName? b ((b.descend segments).child (Utf8.encode x)) = some n ∧
        ∃ y, Text.before '.' y = Text.before '.' x ∧ resolveModule fs n [b] (some s) =
          some ((b.descend segments).child (Utf8.encode y)) :=
  ⟨fun _ _ _ hslash hunmarked hfound =>
      extensionName?_of_resolveModule hwell hslash hunmarked hfound,
    fun _ _ _ hsegments hx hsuffix hfile =>
      exists_resolveModule_of_isFile hwell hlist hb hsegments hx hsuffix hfile⟩

/-- A file with a version in its name is named, and another version of it is
found under that name. -/
theorem extensionName?_resolveModule_tagged :
    taggedHost.isFile (((Path.ofString "/second").descend ["pkg"]).child
      (Utf8.encode "native.cpython-312.so")) ∧
    extensionName? "/second" "/second/pkg/native.cpython-312.so" = some "pkg.native" ∧
    (∃ y, Text.before '.' y = "native" ∧
      resolveModule taggedHost "pkg.native" ["/second"] (some ".so") =
        some ((Path.descend "/second" ["pkg"]).child (Utf8.encode y))) ∧
    ∀ f, resolveModule taggedHost "pkg.native" ["/second"] (some ".so") = some f →
      extensionName? "/second" f = some "pkg.native" := by
  have hwell : taggedHost.tree.WellFormed := by decide +kernel
  have hfile : taggedHost.isFile (((Path.ofString "/second").descend ["pkg"]).child
      (Utf8.encode "native.cpython-312.so")) := by decide +kernel
  have hname : extensionName? "/second" "/second/pkg/native.cpython-312.so" =
      some "pkg.native" := by decide +kernel
  obtain ⟨hnamed, hfound⟩ := extensionName?_resolveModule (b := "/second") hwell
    (fun _ => exists_list_of_superuser rfl) (by decide)
  obtain ⟨n, hn, hresolved⟩ := hfound ["pkg"] "native.cpython-312.so" ".so"
    (fun _ hs => List.mem_singleton.mp hs ▸ ⟨by decide, by decide, by decide, by decide⟩)
    ⟨by decide, by decide, by decide, by decide⟩ (by decide) hfile
  obtain rfl : n = "pkg.native" := Option.some.inj (hn.symm.trans hname)
  exact ⟨hfile, hname, hresolved,
    fun f => hnamed "pkg.native" (some ".so") f (by decide) (by decide)⟩

end Confinement
