import Mathlib.Data.List.Pairwise
import Confinement.Proofs.Lookup.ModuleFile
import Confinement.Standpoint

/-!
# Search lists without duplicates

The child searches the directories among its candidates, one for each list of
components (`occurrences_distinctDirectories`).  What is dropped makes no
difference to a look-up that takes the first answer: a candidate that is no
directory has no files, and one that equals a directory before it leads where
that one leads (`findSome?_distinctDirectories`).

There is one exception.  Of two spellings of a directory the longer one may come
first, and what is found behind the shorter one may be refused behind the longer
one.  `LeavesRoom` says that this is not so.
-/

namespace Confinement

open FileSystem

section

variable {fs : FileSystem} {paths : List Path} {p e q : Path} {file : Bytes}

/-! ## What is searched -/

/-- A directory stands at a place of a list, and none before it has the same
components. -/
structure FirstDirectory (fs : FileSystem) (paths : List Path) (i : Nat) (p : Path) : Prop where
  here : paths[i]? = some p
  directory : fs.isDirectory p
  first : ∀ j < i, ∀ q, paths[j]? = some q → fs.isDirectory q → ¬ p.Same q

/-- `kept` are the directories among `paths`, one for each list of components, in
the order in which they occur first. -/
def Occurrences (fs : FileSystem) (paths kept : List Path) : Prop :=
  ∃ places : List Nat, places.Pairwise (· < ·) ∧
    (∀ i, i ∈ places ↔ ∃ p, FirstDirectory fs paths i p) ∧
    kept.map some = places.map (paths[·]?)

theorem distinctDirectories_concat (fs : FileSystem) (paths : List Path) (last : Path) :
    distinctDirectories fs (paths ++ [last]) =
      if fs.isDirectory last && !(distinctDirectories fs paths).any (decide <| last.Same ·) then
        distinctDirectories fs paths ++ [last]
      else distinctDirectories fs paths := by
  unfold distinctDirectories
  rw [List.foldl_append]
  rfl

theorem mem_of_mem_distinctDirectories (hq : q ∈ distinctDirectories fs paths) :
    q ∈ paths ∧ fs.isDirectory q := by
  induction paths using List.reverseRecOn with
  | nil => cases hq
  | append_singleton paths last ih =>
      rw [distinctDirectories_concat] at hq
      split at hq
      · rename_i hkept
        rcases List.mem_append.mp hq with hq | hq
        · exact (ih hq).imp_left (List.mem_append_left _)
        · obtain rfl := List.mem_singleton.mp hq
          exact ⟨List.mem_append_right _ hq, (Bool.and_eq_true_iff.mp hkept).1⟩
      · exact (ih hq).imp_left (List.mem_append_left _)

theorem exists_mem_distinctDirectories (hp : p ∈ paths) (hdir : fs.isDirectory p) :
    ∃ q ∈ distinctDirectories fs paths, p.Same q := by
  induction paths using List.reverseRecOn with
  | nil => cases hp
  | append_singleton paths last ih =>
      rw [distinctDirectories_concat]
      rcases List.mem_append.mp hp with hp | hp
      · obtain ⟨q, hq, hsame⟩ := ih hp
        refine ⟨q, ?_, hsame⟩
        split
        · exact List.mem_append_left _ hq
        · exact hq
      · obtain rfl := List.mem_singleton.mp hp
        split
        · exact ⟨p, List.mem_append_right _ (List.mem_singleton_self p), rfl⟩
        · -- It was dropped because it equals a directory that is kept.
          rename_i hkept
          rw [hdir, Bool.true_and, Bool.not_eq_true, Bool.not_eq_false'] at hkept
          obtain ⟨q, hq, hsame⟩ := List.any_eq_true.mp hkept
          exact ⟨q, hq, of_decide_eq_true hsame⟩

/-- A candidate is added unless it is no directory or equals one before it. -/
theorem distinctDirectories_concat_cases (fs : FileSystem) (paths : List Path) (last : Path) :
    (fs.isDirectory last ∧ (∀ q ∈ paths, fs.isDirectory q → ¬ last.Same q) ∧
      distinctDirectories fs (paths ++ [last]) = distinctDirectories fs paths ++ [last]) ∨
    ((fs.isDirectory last → ∃ q ∈ paths, fs.isDirectory q ∧ last.Same q) ∧
      distinctDirectories fs (paths ++ [last]) = distinctDirectories fs paths) := by
  rw [distinctDirectories_concat]
  split
  · rename_i hkept
    simp only [Bool.and_eq_true, Bool.not_eq_true', List.any_eq_false,
      decide_eq_true_eq] at hkept
    refine Or.inl ⟨hkept.1, fun q hq hdir hsame => ?_, rfl⟩
    -- A directory among the candidates before it may itself have been dropped, but then for an
    -- equal one.
    obtain ⟨d, hd, hqd⟩ := exists_mem_distinctDirectories hq hdir
    exact hkept.2 d hd (hsame.trans hqd)
  · rename_i hdropped
    refine Or.inr ⟨fun hdir => ?_, rfl⟩
    rw [hdir, Bool.true_and, Bool.not_eq_true, Bool.not_eq_false'] at hdropped
    obtain ⟨q, hq, hsame⟩ := List.any_eq_true.mp hdropped
    obtain ⟨hmem, hqdir⟩ := mem_of_mem_distinctDirectories hq
    exact ⟨q, hmem, hqdir, of_decide_eq_true hsame⟩

theorem firstDirectory_concat_of_lt {last : Path} {i : Nat} (hi : i < paths.length) :
    FirstDirectory fs (paths ++ [last]) i p ↔ FirstDirectory fs paths i p := by
  have hsame : ∀ j ≤ i, (paths ++ [last])[j]? = paths[j]? :=
    fun j hj => List.getElem?_append_left (Nat.lt_of_le_of_lt hj hi)
  constructor
  · rintro ⟨hhere, hdir, hfirst⟩
    exact ⟨hsame i (Nat.le_refl i) ▸ hhere, hdir,
      fun j hj q hq => hfirst j hj q (hsame j (Nat.le_of_lt hj) ▸ hq)⟩
  · rintro ⟨hhere, hdir, hfirst⟩
    exact ⟨(hsame i (Nat.le_refl i)).trans hhere, hdir,
      fun j hj q hq => hfirst j hj q ((hsame j (Nat.le_of_lt hj)).symm.trans hq)⟩

theorem firstDirectory_concat_length {last : Path} :
    FirstDirectory fs (paths ++ [last]) paths.length p ↔
      p = last ∧ fs.isDirectory p ∧ ∀ q ∈ paths, fs.isDirectory q → ¬ p.Same q := by
  have hbefore : (∀ j < paths.length, ∀ q, (paths ++ [last])[j]? = some q →
      fs.isDirectory q → ¬ p.Same q) ↔ ∀ q ∈ paths, fs.isDirectory q → ¬ p.Same q := by
    constructor
    · intro h q hq
      obtain ⟨j, hj, rfl⟩ := List.getElem_of_mem hq
      exact h j hj _ (by rw [List.getElem?_append_left hj, List.getElem?_eq_getElem hj])
    · intro h j hj q hq
      rw [List.getElem?_append_left hj] at hq
      exact h q (List.mem_of_getElem? hq)
  constructor
  · rintro ⟨hhere, hdir, hfirst⟩
    rw [List.getElem?_concat_length] at hhere
    exact ⟨(Option.some.inj hhere).symm, hdir, hbefore.mp hfirst⟩
  · rintro ⟨rfl, hdir, hfirst⟩
    exact ⟨List.getElem?_concat_length, hdir, hbefore.mpr hfirst⟩

/-- A first occurrence in a longer list is one in the list before, or the last
entry if that is a directory and none before it equals it. -/
theorem exists_firstDirectory_concat_iff {last : Path} {i : Nat} :
    (∃ p, FirstDirectory fs (paths ++ [last]) i p) ↔ (∃ p, FirstDirectory fs paths i p) ∨
      i = paths.length ∧ fs.isDirectory last ∧
        ∀ q ∈ paths, fs.isDirectory q → ¬ last.Same q := by
  constructor
  · rintro ⟨p, hp⟩
    obtain ⟨hi, -⟩ := List.getElem?_eq_some_iff.mp hp.here
    rw [List.length_append, List.length_singleton] at hi
    rcases Nat.lt_succ_iff_lt_or_eq.mp hi with hlt | rfl
    · exact Or.inl ⟨p, (firstDirectory_concat_of_lt hlt).mp hp⟩
    · obtain ⟨rfl, hdir, hfresh⟩ := firstDirectory_concat_length.mp hp
      exact Or.inr ⟨rfl, hdir, hfresh⟩
  · rintro (⟨p, hp⟩ | ⟨rfl, hdir, hfresh⟩)
    · obtain ⟨hi, -⟩ := List.getElem?_eq_some_iff.mp hp.here
      exact ⟨p, (firstDirectory_concat_of_lt hi).mpr hp⟩
    · exact ⟨last, firstDirectory_concat_length.mpr ⟨rfl, hdir, hfresh⟩⟩

theorem occurrences_distinctDirectories (fs : FileSystem) (paths : List Path) :
    Occurrences fs paths (distinctDirectories fs paths) := by
  induction paths using List.reverseRecOn with
  | nil =>
      refine ⟨[], .nil, fun i => ?_, rfl⟩
      simp only [List.not_mem_nil, false_iff, not_exists]
      rintro p ⟨hhere, -⟩
      simp at hhere
  | append_singleton paths last ih =>
      obtain ⟨places, hsorted, hmem, hkept⟩ := ih
      have hlt : ∀ i ∈ places, i < paths.length := by
        intro i hi
        obtain ⟨p, hhere, -⟩ := (hmem i).mp hi
        exact (List.getElem?_eq_some_iff.mp hhere).1
      have hold : places.map ((paths ++ [last])[·]?) = (distinctDirectories fs paths).map some := by
        rw [hkept]
        exact List.map_congr_left fun i hi => List.getElem?_append_left (hlt i hi)
      rcases distinctDirectories_concat_cases fs paths last with
        ⟨hdir, hfresh, heq⟩ | ⟨hstale, heq⟩
      · refine ⟨places ++ [paths.length], ?_, fun i => ?_, ?_⟩
        · refine List.pairwise_append.mpr ⟨hsorted, List.pairwise_singleton _ _, ?_⟩
          intro i hi j hj
          exact List.mem_singleton.mp hj ▸ hlt i hi
        · rw [exists_firstDirectory_concat_iff, ← hmem, and_iff_left ⟨hdir, hfresh⟩,
            List.mem_append, List.mem_singleton]
        · rw [heq, List.map_append, List.map_append, hold]
          simp
      · refine ⟨places, hsorted, fun i => ?_, ?_⟩
        · rw [exists_firstDirectory_concat_iff, ← hmem]
          refine (or_iff_left ?_).symm
          rintro ⟨-, hdir, hfresh⟩
          obtain ⟨q, hq, hqdir, hsame⟩ := hstale hdir
          exact hfresh q hq hqdir hsame
        · rw [heq, hold]

/-! ## The first answer -/

/-- A look-up that takes the first answer needs no candidate that has none, and
none that has one only if an equal directory before it has. -/
theorem findSome?_distinctDirectories {β : Type} (g : Path → Option β)
    (hnone : ∀ e ∈ paths, ¬ fs.isDirectory e → g e = none)
    (hshadow : paths.Pairwise fun p e =>
      fs.isDirectory p → e.Same p → (g e).isSome → (g p).isSome) :
    (distinctDirectories fs paths).findSome? g = paths.findSome? g := by
  induction paths using List.reverseRecOn with
  | nil => rfl
  | append_singleton paths last ih =>
      obtain ⟨hbefore, -, hlast⟩ := List.pairwise_append.mp hshadow
      have ih := ih (fun e he => hnone e (List.mem_append_left _ he)) hbefore
      rw [List.findSome?_append, List.findSome?_singleton]
      rcases distinctDirectories_concat_cases fs paths last with ⟨-, -, heq⟩ | ⟨hstale, heq⟩
      · rw [heq, List.findSome?_append, List.findSome?_singleton, ih]
      · rw [heq, ih]
        cases hg : g last with
        | none => rw [Option.or_none]
        | some b =>
            -- The candidate that was dropped would have had an answer; so it is a directory, and an
            -- equal one before it was searched instead.
            have hdir : fs.isDirectory last := by
              by_contra hdir
              rw [hnone last (by simp) hdir] at hg
              cases hg
            obtain ⟨p, hp, hpdir, hsame⟩ := hstale hdir
            have hgp := hlast p hp last (List.mem_singleton_self _) hpdir hsame (by rw [hg]; rfl)
            have hfound : (paths.findSome? g).isSome := List.findSome?_isSome_iff.mpr ⟨p, hp, hgp⟩
            obtain ⟨found, hfound⟩ := Option.isSome_iff_exists.mp hfound
            rw [hfound, Option.some_or]

/-! ## Equal directories -/

/-- A file that is found behind one spelling of a directory is found behind
another, if that is not too long. -/
theorem isFile_join_of_same (hdir : fs.isDirectory p) (hsame : e.Same p) (hq : ¬ q.isAbsolute)
    (hfile : fs.isFile (e.join q)) (hlength : (p.join q).length < pathLimit) :
    fs.isFile (p.join q) := by
  obtain ⟨l, mode, content, hfind⟩ := isFile_iff.mp hfile
  obtain ⟨hfits, ⟨n, hn, hwalk⟩, hat, hslash⟩ := find_true_eq_ok_iff.mp hfind
  obtain ⟨d, mode', es, hfindp⟩ := isDirectory_iff.mp hdir
  obtain ⟨hfitsp, ⟨m, -, hwalkp⟩, -, -⟩ := find_true_eq_ok_iff.mp hfindp
  -- What ends with a slash is no file.
  have hplain : (e.join q).endsWithSlash = false := by
    rw [Bool.eq_false_iff]
    intro h
    obtain ⟨mode'', hlook, -⟩ := hslash h
    rw [Node.look, hat] at hlook
    cases hlook
  have hqne : q.bytes ≠ [] := by
    intro hnil
    obtain rfl : q = ⟨[]⟩ := congrArg Path.mk hnil
    by_cases he : e.bytes = []
    · exact hfits.ne_nil (by simp [Path.join, Path.isAbsolute, Path.isEmpty, he])
    · rw [Path.endsWithSlash_join_nil he] at hplain
      cases hplain
  rw [Path.words_join e hq, start, Path.isAbsolute_join e hq] at hwalk
  obtain ⟨n₁, n₂, d', rfl, hleft, hright⟩ := hwalk.split
  obtain ⟨rfl, rfl⟩ := Walk.unique_of_same hsame hleft hwalkp
  refine isFile_iff.mpr ⟨l, mode, content, find_true_eq_ok_iff.mpr ⟨⟨?_, ?_, hlength⟩,
    ⟨n₁ + n₂, hn, ?_⟩, hat, ?_⟩⟩
  · obtain ⟨between, -, hbytes⟩ := Path.exists_join_bytes_eq p hq
    simp [hbytes, hqne]
  · obtain ⟨between, hbetween, hbytes⟩ := Path.exists_join_bytes_eq p hq
    obtain ⟨between', -, hbytes'⟩ := Path.exists_join_bytes_eq e hq
    have hqnul : 0 ∉ q.bytes := fun hmem =>
      hfits.nul_notMem (by rw [hbytes']; exact List.mem_append_right _ hmem)
    rw [hbytes]
    rcases hbetween with rfl | rfl <;> simp [hfitsp.nul_notMem, hqnul, Path.slash]
  · rw [Path.words_join p hq, start, Path.isAbsolute_join p hq]
    exact hwalkp.append hright
  · rw [Path.endsWithSlash_join p hq hqne, ← Path.endsWithSlash_join e hq hqne, hplain]
    exact fun h => absurd h Bool.false_ne_true

theorem isDirectory_of_isFile_join (he : e.bytes ≠ []) (hslash : Path.slash ∉ file)
    (hfile : fs.isFile (e.join ⟨file⟩)) : fs.isDirectory e := by
  obtain ⟨l, mode, content, hfind⟩ := isFile_iff.mp hfile
  exact (exists_lists_of_isFile_child (isName_of_find_file hslash hfind) he hfile).1

/-- Two spellings of a directory list the same entries. -/
theorem list_of_same {entries : Entries} (hdir : fs.isDirectory p) (hsame : e.Same p)
    (hlist : fs.list e = .ok entries) : fs.list p = .ok entries := by
  obtain ⟨l, mode, hfind, hread⟩ := list_eq_ok_iff.mp hlist
  obtain ⟨d, mode', es, hfindp⟩ := isDirectory_iff.mp hdir
  obtain ⟨-, ⟨n, -, hwalk⟩, hat, -⟩ := find_true_eq_ok_iff.mp hfind
  obtain ⟨-, ⟨m, -, hwalkp⟩, hatp, -⟩ := find_true_eq_ok_iff.mp hfindp
  obtain ⟨-, rfl⟩ := Walk.unique_of_same hsame hwalk hwalkp
  rw [Option.some.inj (hatp.symm.trans hat)] at hfindp
  exact list_eq_ok_iff.mpr ⟨_, mode, hfindp, hread⟩

/-! ## Look-ups -/

/-- Where `e` has a file, a directory `p` with the same components has room for
its name: the path of the file behind `p` is not too long. -/
def LeavesRoom (fs : FileSystem) (file : Bytes) (p e : Path) : Prop :=
  fs.isDirectory p → e.Same p → fs.isFile (e.child file) → (p.child file).length < pathLimit

instance (fs : FileSystem) (file : Bytes) (p e : Path) : Decidable (LeavesRoom fs file p e) :=
  inferInstanceAs (Decidable (_ → _))

theorem leavesRoom_of_length_le (h : (p.child file).length ≤ (e.child file).length) :
    LeavesRoom fs file p e := by
  intro _ _ hfile
  obtain ⟨l, mode, content, hfind⟩ := isFile_iff.mp hfile
  exact Nat.lt_of_le_of_lt h (find_true_eq_ok_iff.mp hfind).1.length_lt

theorem findLibrary_eq (fs : FileSystem) (name : String) (directories : List Path) :
    findLibrary fs name directories =
      if '/' ∈ name.toList then none
      else directories.findSome? fun d =>
        Option.guard (fs.isFile ·) (d.child (Utf8.encode name)) := by
  simp only [findLibrary, List.contains_iff_mem, List.find?_eq_findSome?_guard, List.findSome?_map]
  rfl

/-- A library is found on the distinct directories where it is found on all
candidates. -/
theorem findLibrary_distinctDirectories {name : String} (hne : ∀ p ∈ paths, p.bytes ≠ [])
    (hroom : paths.Pairwise (LeavesRoom fs (Utf8.encode name))) :
    findLibrary fs name (distinctDirectories fs paths) = findLibrary fs name paths := by
  rw [findLibrary_eq, findLibrary_eq]
  split
  · rfl
  · rename_i hslash
    have hslash := Utf8.slash_notMem_encode hslash
    apply findSome?_distinctDirectories
    · intro e he hdir
      rw [Option.guard_eq_none_iff]
      rw [Bool.eq_false_iff]
      exact fun hfile => hdir (isDirectory_of_isFile_join (hne e he) hslash hfile)
    · refine hroom.imp fun {p e} hroom hdir hsame hfile => ?_
      simp only [Option.isSome_guard] at hfile ⊢
      exact isFile_join_of_same hdir hsame (Path.not_isAbsolute_of_notMem hslash) hfile
        (hroom hdir hsame hfile)

/-- What implements a module named without a slash is no absolute path. -/
theorem Implements.not_isAbsolute {leaf : String} {suffix : Option String}
    (h : Implements fs leaf suffix e file) (hleaf : '/' ∉ leaf.toList) :
    ¬ (Path.mk file).isAbsolute := by
  obtain ⟨text, rfl, rfl, -⟩ := h.spelled
  intro habs
  rw [Path.isAbsolute, decide_eq_true_iff, Utf8.encode, Utf8.encodeChars] at habs
  apply hleaf
  rw [Text.before, String.toList_ofList]
  -- A file name that began with a slash would have one in front of its first dot.
  cases hcs : text.toList with
  | nil => simp [hcs] at habs
  | cons c cs =>
      rw [hcs, List.flatMap_cons, List.head?_append_of_ne_nil _ String.utf8EncodeChar_ne_nil]
        at habs
      obtain rfl := Utf8.eq_slash_of_mem_utf8EncodeChar (List.mem_of_head? habs)
      simp

/-- Two spellings of a directory have the same files of a module. -/
theorem Implements.of_same {leaf : String} {suffix : Option String}
    (h : Implements fs leaf suffix e file) (hleaf : '/' ∉ leaf.toList) (hdir : fs.isDirectory p)
    (hsame : e.Same p) (hroom : LeavesRoom fs file p e) : Implements fs leaf suffix p file where
  lists := by
    obtain ⟨entries, hlist, hmem⟩ := h.lists
    exact ⟨entries, list_of_same hdir hsame hlist, hmem⟩
  spelled := h.spelled
  isFile := isFile_join_of_same hdir hsame (h.not_isAbsolute hleaf) h.isFile
    (hroom hdir hsame h.isFile)

/-- A module with a plain name is found on the distinct directories where it is
found on all candidates. -/
theorem resolveModule_distinctDirectories {name : String} {suffix : Option String}
    (hdot : '.' ∉ name.toList) (hslash : '/' ∉ name.toList)
    (hroom : ∀ file, namesModule name suffix file → paths.Pairwise (LeavesRoom fs file)) :
    resolveModule fs name (distinctDirectories fs paths) suffix =
      resolveModule fs name paths suffix := by
  have hfields : Text.fields '.' name = [name] := Text.fields_of_notMem hdot
  have hleaf : moduleLeaf name = name := by rw [moduleLeaf, hfields]; rfl
  have hbase : ∀ base, moduleDirectory base name = base := by
    intro base
    rw [moduleDirectory, hfields]
    rfl
  rw [resolveModule_eq, resolveModule_eq, hleaf]
  simp only [hbase]
  split
  · rfl
  · apply findSome?_distinctDirectories
    · intro e he hdir
      refine head?_moduleFiles_eq_none_iff.mpr fun file himplements => hdir ?_
      obtain ⟨entries, hlist, -⟩ := himplements.lists
      obtain ⟨l, mode, hfind, -⟩ := list_eq_ok_iff.mp hlist
      exact isDirectory_iff.mpr ⟨l, mode, entries, hfind⟩
    · -- The file that a later spelling has is the one to ask the room for.
      refine List.pairwise_iff_forall_sublist.mpr fun {p e} hsub hdir hsame hsome => ?_
      rw [Option.isSome_iff_ne_none, ne_eq, head?_moduleFiles_eq_none_iff] at hsome ⊢
      push Not at hsome ⊢
      obtain ⟨file, himplements⟩ := hsome
      have hroom := List.pairwise_iff_forall_sublist.mp
        (hroom file (namesModule_iff.mpr himplements.spelled)) hsub
      exact ⟨file, himplements.of_same hslash hdir hsame hroom⟩

end

/-- The child searches the directories among its candidates, each list of
components where it occurs first.  On these it finds the modules with plain
names and, if no candidate is empty, the libraries that it would find on all
candidates, unless a spelling that is searched is too long for the file. -/
theorem remap_filters (fs : FileSystem) (entries : List Path) (moduleDirectory : Option Path)
    (distinct : List Path) (staging : Path) :
    Occurrences fs (candidates entries moduleDirectory distinct staging)
      (remap fs entries moduleDirectory distinct staging) ∧
    (∀ name suffix, '.' ∉ name.toList → '/' ∉ name.toList →
      (∀ file, namesModule name suffix file →
        (candidates entries moduleDirectory distinct staging).Pairwise (LeavesRoom fs file)) →
      resolveModule fs name (remap fs entries moduleDirectory distinct staging) suffix =
        resolveModule fs name (candidates entries moduleDirectory distinct staging) suffix) ∧
    ((∀ p ∈ candidates entries moduleDirectory distinct staging, p.bytes ≠ []) →
      ∀ name,
        (candidates entries moduleDirectory distinct staging).Pairwise
          (LeavesRoom fs (Utf8.encode name)) →
        findLibrary fs name (remap fs entries moduleDirectory distinct staging) =
          findLibrary fs name (candidates entries moduleDirectory distinct staging)) :=
  ⟨occurrences_distinctDirectories fs _,
    fun _ _ hdot hslash hroom => resolveModule_distinctDirectories hdot hslash hroom,
    fun hne _ hroom => findLibrary_distinctDirectories hne hroom⟩

/-- A directory with one file, beside a file. -/
def spelledHost : FileSystem where
  tree := .directory 0o755 [
    (Utf8.encode "lib", .directory 0o755 [(Utf8.encode "x.so", .file 0o755 [])]),
    (Utf8.encode "bin", .file 0o755 [])]

/-- Of two spellings of a directory the first is searched, and the file is found
under it. -/
theorem remap_filters_spelled :
    let paths : List Path := ["/lib/", "/bin", "/lib", "/stage/lib"]
    candidates ["/lib/", "/bin"] (some "/lib") ["/lib"] "/stage" = paths ∧
    remap spelledHost ["/lib/", "/bin"] (some "/lib") ["/lib"] "/stage" = ["/lib/"] ∧
    paths.Pairwise (LeavesRoom spelledHost (Utf8.encode "x.so")) ∧
    resolveModule spelledHost "x" ["/lib/"] (some ".so") =
      resolveModule spelledHost "x" paths (some ".so") ∧
    findLibrary spelledHost "x.so" ["/lib/"] = findLibrary spelledHost "x.so" paths ∧
    findLibrary spelledHost "x.so" paths = some (Path.ofString "/lib/x.so") := by
  intro paths
  have hcandidates : candidates ["/lib/", "/bin"] (some "/lib") ["/lib"] "/stage" = paths := by
    decide +kernel
  have hremap : remap spelledHost ["/lib/", "/bin"] (some "/lib") ["/lib"] "/stage" =
      ["/lib/"] := by decide +kernel
  have hroom : ∀ file, paths.Pairwise (LeavesRoom spelledHost file) := by
    intro file
    -- A file has the same path under both spellings.
    have hspelled : Path.child "/lib/" file = Path.child "/lib" file := by
      unfold Path.child Path.join
      split <;> rfl
    have hother : ∀ {p e : Path}, ¬ e.Same p → LeavesRoom spelledHost file p e :=
      fun hne _ hsame => absurd hsame hne
    simp only [paths, List.pairwise_cons, List.mem_cons, forall_eq_or_imp, List.not_mem_nil,
      false_implies, implies_true, and_true, List.Pairwise.nil]
    have hlib : LeavesRoom spelledHost file "/lib/" "/lib" :=
      leavesRoom_of_length_le (Nat.le_of_eq (congrArg Path.length hspelled))
    exact ⟨⟨hother (by decide), hlib, hother (by decide)⟩,
      ⟨hother (by decide), hother (by decide)⟩, hother (by decide)⟩
  obtain ⟨-, hmodule, hlibrary⟩ :=
    remap_filters spelledHost ["/lib/", "/bin"] (some "/lib") ["/lib"] "/stage"
  rw [hcandidates, hremap] at hmodule hlibrary
  exact ⟨hcandidates, hremap, hroom _,
    hmodule "x" (some ".so") (by decide) (by decide) fun file _ => hroom file,
    hlibrary (by decide) "x.so" (hroom _), by decide +kernel⟩

/-- The longer spelling of a directory comes first, and what is found behind the
shorter one is refused behind the longer one. -/
theorem remap_padded :
    let long : Path := ⟨Utf8.encode "lib" ++ List.replicate 4092 Path.slash⟩
    remap spelledHost [long, "lib"] none [] "/stage" = [long] ∧
    findLibrary spelledHost "x.so" [long, "lib"] = some (Path.ofString "lib/x.so") ∧
    findLibrary spelledHost "x.so" [long] = none ∧
    resolveModule spelledHost "x" [long, "lib"] none = some (Path.ofString "lib/x.so") ∧
    resolveModule spelledHost "x" [long] none = none := by
  intro long
  have hdir : spelledHost.isDirectory long = true := by decide +kernel
  have hsame : Path.Same "lib" long := by decide +kernel
  have hremap : remap spelledHost [long, "lib"] none [] "/stage" = [long] := by
    simp [remap, candidates, distinctDirectories, hdir, hsame]
  have hshort : moduleFiles spelledHost "x" none "lib" = Path.sort ["lib/x.so"] := rfl
  have hlong : (moduleFiles spelledHost "x" none long).head? = none := by
    refine head?_moduleFiles_eq_none_iff.mpr fun file himplements => ?_
    obtain ⟨entries, hlist, hmem⟩ := himplements.lists
    have hlib : spelledHost.list "lib" = .ok [(Utf8.encode "x.so", .file 0o755 [])] := rfl
    obtain rfl := Except.ok.inj (hlist.symm.trans (list_of_same hdir hsame hlib))
    -- The only entry there is gives a path that is too long to be looked at.
    obtain rfl := List.mem_singleton.mp hmem
    have hrefused : spelledHost.isFile (long.child (Utf8.encode "x.so")) = false := by
      decide +kernel
    exact absurd himplements.isFile (by simp [hrefused])
  have hlookup : ∀ directories, resolveModule spelledHost "x" directories none =
      directories.findSome? fun directory => (moduleFiles spelledHost "x" none directory).head? :=
    fun _ => rfl
  refine ⟨hremap, by decide +kernel, by decide +kernel, ?_, ?_⟩
  · rw [hlookup]
    simp [hlong, hshort, Path.sort]
  · rw [hlookup]
    simp [hlong]

end Confinement
