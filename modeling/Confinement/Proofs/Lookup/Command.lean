import Confinement.Invocation
import Confinement.Proofs.Lookup.ModuleFile

/-!
# The name of a command

The command of an invocation is known by one name wherever it is needed: the
invocation's own name for it, by which a clash is looked for, is the name that
its object would be bound by (`Invocation.moduleName_eq_ok_iff`).  The name is
one segment, so it is looked up in the search directories themselves, and in the
command's own directory that finds an object of the same name
(`resolveModule_moduleName`).
-/

namespace Confinement

open FileSystem
open Confinement.Path (IsName)

variable {fs : FileSystem} {p d : Path} {n x : String} {file : Bytes} {i : Invocation}

/-! ## Names of objects -/

theorem isName_of_fileName? (h : p.fileName? = some file) : IsName file := by
  obtain ⟨last, hlast, hname⟩ := Option.bind_eq_some_iff.mp h
  apply Path.isName_of_mem_names (p := p)
  exact List.mem_filterMap.mpr ⟨last, List.mem_of_getLast? hlast, hname⟩

theorem fileName?_child (d : Path) (h : IsName file) : (d.child file).fileName? = some file := by
  rw [Path.fileName?, Path.components_child d h, List.getLast?_concat]
  rfl

/-- An object has a name if its file name is text with something in front of the
first dot. -/
theorem moduleName?_eq_some_iff : moduleName? p = some n ↔
    ∃ x, p.fileName? = some (Utf8.encode x) ∧ Text.before '.' x = n ∧ n ≠ "" := by
  simp only [moduleName?, Option.bind_eq_bind, Option.bind_eq_some_iff,
    Utf8.decode?_eq_some_iff]
  constructor
  · rintro ⟨_, hfile, x, rfl, hname⟩
    split at hname
    · cases hname
    · rename_i hne
      obtain rfl := Option.some.inj hname
      exact ⟨x, hfile, rfl, by simpa using hne⟩
  · rintro ⟨x, hfile, rfl, hne⟩
    exact ⟨_, hfile, x, rfl, by simp [hne]⟩

theorem Invocation.moduleName_eq_ok_iff : i.moduleName = .ok n ↔ moduleName? i.cmd = some n := by
  have hname : moduleName? i.cmd = (i.cmd.fileName?.bind Utf8.decode?).bind fun x =>
      if (Text.before '.' x).isEmpty then none else some (Text.before '.' x) :=
    (Option.bind_assoc ..).symm
  rw [hname, moduleName]
  cases i.cmd.fileName?.bind Utf8.decode? with
  | none => simp
  | some x => by_cases hempty : Text.before '.' x = "" <;> simp [hempty]

theorem slash_notMem_of_moduleName? (h : moduleName? p = some n) : '/' ∉ n.toList := by
  obtain ⟨x, hfile, rfl, -⟩ := moduleName?_eq_some_iff.mp h
  rw [Text.before, String.toList_ofList]
  intro hmem
  apply (isName_of_fileName? hfile).slash_notMem
  exact List.mem_flatMap.mpr ⟨'/', (List.takeWhile_sublist _).mem hmem, by decide⟩

theorem dot_notMem_of_moduleName? (h : moduleName? p = some n) : '.' ∉ n.toList := by
  obtain ⟨x, -, rfl, -⟩ := moduleName?_eq_some_iff.mp h
  exact Text.sep_notMem_before '.' x

/-! ## Finding the command again -/

theorem moduleDirectory_of_dot_notMem (h : '.' ∉ n.toList) (d : Path) :
    moduleDirectory d n = d := by
  rw [moduleDirectory, Text.fields_of_notMem h]
  rfl

theorem moduleLeaf_of_dot_notMem (h : '.' ∉ n.toList) : moduleLeaf n = n := by
  rw [moduleLeaf, Text.fields_of_notMem h]
  rfl

/-- What implements a module bears its name. -/
theorem Implements.moduleName?_child {suffix : Option String} (h : Implements fs n suffix d file)
    (hwell : fs.tree.WellFormed) (hne : n ≠ "") : moduleName? (d.child file) = some n := by
  obtain ⟨x, hx, hleaf, -⟩ := h.spelled
  exact moduleName?_eq_some_iff.mpr
    ⟨x, by rw [fileName?_child d (h.isName hwell), hx], hleaf, hne⟩

/-- A command is known by one name wherever it is needed, that name is one
segment, and where the command's directory has the command itself, looking the
name up there finds an object of that name in the directory. -/
theorem resolveModule_moduleName (i : Invocation) (n : String) :
    (i.moduleName = .ok n ↔ moduleName? i.cmd = some n) ∧
    (i.moduleName = .ok n →
      (n ≠ "" ∧ '.' ∉ n.toList ∧ '/' ∉ n.toList ∧ Text.fields '.' n = [n]) ∧
      ∀ (fs : FileSystem) (d : Path) (x suffix : String), fs.tree.WellFormed →
        i.moduleDirectory? = some d → (∃ entries, fs.list d = .ok entries) →
        i.cmd.fileName? = some (Utf8.encode x) → suffix.toList <:+ x.toList →
        fs.isFile (d.child (Utf8.encode x)) →
        ∃ found, resolveModule fs n [d] (some suffix) = some (d.child found) ∧
          fs.Lists d found ∧ fs.isFile (d.child found) ∧
          moduleName? (d.child found) = some n) := by
  refine ⟨Invocation.moduleName_eq_ok_iff, fun hmodule => ?_⟩
  have hname := Invocation.moduleName_eq_ok_iff.mp hmodule
  have hdot := dot_notMem_of_moduleName? hname
  obtain ⟨y, hy, hleaf, hne⟩ := moduleName?_eq_some_iff.mp hname
  refine ⟨⟨hne, hdot, slash_notMem_of_moduleName? hname, Text.fields_of_notMem hdot⟩, ?_⟩
  intro fs d x suffix hwell hdirectory hlist hx hsuffix hfile
  obtain rfl : x = y := Utf8.encode_injective (Option.some.inj (hx.symm.trans hy))
  have hd : d.bytes ≠ [] := by
    obtain ⟨-, hd⟩ := Option.filter_eq_some_iff.mp hdirectory
    simpa [Path.isEmpty] using hd
  obtain ⟨entries, hentries⟩ := hlist
  obtain ⟨-, hlists⟩ := exists_lists_of_isFile_child (isName_of_fileName? hx) hd hfile
  -- The command itself would do, so something is found.
  have himplements : Implements fs n (some suffix) d (Utf8.encode x) := by
    refine ⟨hlists entries hentries, ⟨x, rfl, hleaf, ?_⟩, hfile⟩
    rintro s ⟨⟩
    exact hsuffix
  have hfields : "" ∉ Text.fields '.' n := by
    rw [Text.fields_of_notMem hdot, List.mem_singleton]
    exact hne.symm
  rw [← moduleLeaf_of_dot_notMem hdot, ← moduleDirectory_of_dot_notMem hdot d] at himplements
  obtain ⟨found, hresolved, hfound⟩ := exists_resolveModule_of_implements hwell hfields himplements
  rw [moduleDirectory_of_dot_notMem hdot d] at hresolved hfound
  rw [moduleLeaf_of_dot_notMem hdot] at hfound
  exact ⟨found, hresolved, hfound.lists, hfound.isFile, hfound.moduleName?_child hwell hne⟩

/-- An object in a directory with another version of it, spelled with segments
that carry no meaning. -/
def taggedInvocation : Invocation where
  root := "/"
  cmd := "/second/pkg/./native.cpython-312.so/"

/-- The command is found again under its name, if perhaps in another version. -/
theorem resolveModule_moduleName_tagged :
    taggedHost.tree.WellFormed ∧ taggedInvocation.moduleName = .ok "native" ∧
    taggedInvocation.moduleDirectory? = some (Path.ofString "/second/pkg") ∧
    taggedHost.isFile (Path.child "/second/pkg" (Utf8.encode "native.cpython-312.so")) ∧
    ∃ found, resolveModule taggedHost "native" ["/second/pkg"] (some ".so") =
        some (Path.child "/second/pkg" found) ∧
      taggedHost.Lists "/second/pkg" found ∧
      moduleName? (Path.child "/second/pkg" found) = some "native" := by
  have hwell : taggedHost.tree.WellFormed := by decide +kernel
  have hmodule : taggedInvocation.moduleName = .ok "native" :=
    Invocation.moduleName_eq_ok_iff.mpr (by decide +kernel)
  have hdirectory : taggedInvocation.moduleDirectory? = some (Path.ofString "/second/pkg") := by
    decide +kernel
  have hfile : taggedHost.isFile
      (Path.child "/second/pkg" (Utf8.encode "native.cpython-312.so")) := by decide +kernel
  obtain ⟨-, hfound⟩ := resolveModule_moduleName taggedInvocation "native"
  obtain ⟨-, hfinds⟩ := hfound hmodule
  obtain ⟨found, hresolved, hlists, -, hname⟩ := hfinds taggedHost "/second/pkg"
    "native.cpython-312.so" ".so" hwell hdirectory
    (exists_list_of_superuser rfl (by decide +kernel))
    (by decide +kernel) (by decide) hfile
  exact ⟨hwell, hmodule, hdirectory, hfile, found, hresolved, hlists, hname⟩

end Confinement
