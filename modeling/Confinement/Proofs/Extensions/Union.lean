import Confinement.Failure
import Confinement.Proofs.Extensions
import Confinement.Proofs.Text.Lines
import Confinement.Proofs.Text.Utf8
import Mathlib.Data.List.Sort

/-!
# Unions of extensions

A set grows by additions: names that a caller has, and list files.  What an
addition offers is read off the addition alone (`Addition.Offers`), and a set
after additions is the union of what it was and of what they offer
(`mem_addAll`).  Names are trimmed once in a list and once more in the set, which
makes no difference.

A set lists clean names in strict order (`Kept`), so it is given by its members,
and neither the order of additions counts nor how often or in which groups they
are made.  A list file that cannot be read adds nothing.  `addAll_union` puts
this together.
-/

namespace Confinement.ExtensionSet

/-- What can be done to a set: names are added, or those in a list file as it is
found at the time. -/
inductive Addition where
  | names (given : List String)
  | listFile (fs : FileSystem) (path : Path)

/-- A name that an addition offers. -/
def Addition.Offers : Addition → String → Prop
  | .names given, x => x ≠ "" ∧ ∃ name ∈ given, Text.trim name = x
  | .listFile fs path, x => x ≠ "" ∧ ∃ text, fs.readText path = .ok text ∧
      ∃ line ∈ Text.lines text, Text.trim line = x

/-- What the caller is told about an addition, and the set after it. -/
def add (s : ExtensionSet) : Addition → Except Failure Unit × ExtensionSet
  | .names given => (.ok (), s.extend given)
  | .listFile fs path =>
    match (mergeFile fs s path).1 with
    | .ok merged => (.ok (), merged)
    | .error u => (.error (.configuration u.message), s)

/-- The set after some additions, whether or not they succeed. -/
def addAll (s : ExtensionSet) (additions : List Addition) : ExtensionSet :=
  additions.foldl (fun s addition => (s.add addition).2) s

/-- The names of a set are clean, and stand in strict order. -/
structure Kept (s : ExtensionSet) : Prop where
  ordered : s.Ordered
  trimmed : ∀ x ∈ s.names, x ≠ "" ∧ Text.trim x = x

variable {s t : ExtensionSet} {additions others : List Addition} {addition : Addition}
  {names : List String} {x : String} {fs : FileSystem} {path : Path}

/-! ## One addition -/

theorem add_of_readText {text : String} (hread : fs.readText path = .ok text) :
    s.add (.listFile fs path) = (.ok (), s.extend (listed text)) := by
  rw [add, mergeFile_of_readText hread]

theorem add_of_readText_error {e : IoError} (hread : fs.readText path = .error e) :
    s.add (.listFile fs path) = (.error (.configuration (Unreadable.message ⟨path, e⟩)), s) := by
  rw [add, mergeFile_of_readText_error hread]

/-- A set after an addition has what it had and what the addition offers. -/
theorem mem_add : x ∈ (s.add addition).2.names ↔ x ∈ s.names ∨ addition.Offers x := by
  cases addition with
  | names given => rw [add, mem_extend, mem_clean, Addition.Offers]
  | listFile fs path =>
      cases hread : fs.readText path with
      | error e => simp [add_of_readText_error hread, Addition.Offers, hread]
      | ok text =>
          simp [add_of_readText hread, mem_extend, mem_clean_listed, Addition.Offers, hread]

/-- What is offered is clean. -/
theorem Addition.Offers.trimmed (h : addition.Offers x) : x ≠ "" ∧ Text.trim x = x := by
  cases addition with
  | names given =>
      obtain ⟨hne, name, -, rfl⟩ := h
      exact ⟨hne, trim_trim name⟩
  | listFile fs path =>
      obtain ⟨hne, text, -, line, -, rfl⟩ := h
      exact ⟨hne, trim_trim line⟩

theorem Ordered.add (h : s.Ordered) (addition : Addition) : (s.add addition).2.Ordered := by
  cases addition with
  | names given => exact h.extend given
  | listFile fs path =>
      cases hread : fs.readText path with
      | error e => rwa [add_of_readText_error hread]
      | ok text => rw [add_of_readText hread]; exact h.extend _

theorem Kept.add (h : s.Kept) (addition : Addition) : (s.add addition).2.Kept := by
  refine ⟨h.ordered.add addition, fun x hx => ?_⟩
  rcases mem_add.mp hx with hx | hoffers
  · exact h.trimmed x hx
  · exact hoffers.trimmed

theorem kept_ofNames (names : List String) : (ofNames names).Kept :=
  have hempty : (⟨[]⟩ : ExtensionSet).Kept := ⟨List.Pairwise.nil, by simp⟩
  hempty.add (.names names)

/-! ## Many additions -/

theorem mem_addAll :
    x ∈ (s.addAll additions).names ↔ x ∈ s.names ∨ ∃ a ∈ additions, a.Offers x := by
  induction additions generalizing s with
  | nil => simp [addAll]
  | cons a rest ih =>
      rw [addAll, List.foldl_cons, ← addAll, ih, mem_add]
      simp only [List.mem_cons, or_and_right, exists_or, exists_eq_left, or_assoc]

theorem Kept.addAll (h : s.Kept) (additions : List Addition) : (s.addAll additions).Kept := by
  induction additions generalizing s with
  | nil => exact h
  | cons a rest ih => exact ih (h.add a)

theorem Kept.ext (hs : s.Kept) (ht : t.Kept) (h : ∀ x, x ∈ s.names ↔ x ∈ t.names) : s = t :=
  congrArg ExtensionSet.mk (hs.ordered.eq_of_mem_iff ht.ordered h)

/-- The same is offered to a set by what is gathered in a set of its own. -/
theorem mem_extend_addAll :
    x ∈ (s.extend ((ofNames []).addAll additions).names).names ↔
      x ∈ s.names ∨ ∃ a ∈ additions, a.Offers x := by
  have hkept := (kept_ofNames []).addAll additions
  -- What was gathered is clean, so cleaning it a second time loses nothing.
  have hgathered : x ∈ clean ((ofNames []).addAll additions).names ↔
      x ∈ ((ofNames []).addAll additions).names := by
    rw [mem_clean]
    constructor
    · rintro ⟨-, y, hy, rfl⟩
      rwa [(hkept.trimmed y hy).2]
    · intro hx
      exact ⟨(hkept.trimmed x hx).1, x, hx, (hkept.trimmed x hx).2⟩
  rw [mem_extend, hgathered, mem_addAll]
  exact or_congr_right (or_iff_right List.not_mem_nil)

theorem foldl_extend_addAll (hs : s.Kept) (groups : List (List Addition)) :
    groups.foldl (fun s group => s.extend ((ofNames []).addAll group).names) s =
      s.addAll groups.flatten := by
  induction groups generalizing s with
  | nil => rfl
  | cons group rest ih =>
      -- Both sides are kept sets, so that they have the same members is enough.
      have hgroup : s.extend ((ofNames []).addAll group).names = s.addAll group :=
        Kept.ext (hs.add (.names _)) (hs.addAll group) fun x =>
          mem_extend_addAll.trans mem_addAll.symm
      rw [List.foldl_cons, hgroup, ih (hs.addAll group), List.flatten_cons, addAll, addAll, addAll,
        List.foldl_append]

/-- What a list file offers stands between the line feeds of its text, whatever
its lines end with. -/
theorem offers_listFile_iff {text : String} (hread : fs.readText path = .ok text) :
    (Addition.listFile fs path).Offers x ↔
      x ≠ "" ∧ ∃ part ∈ Text.fields '\n' text, Text.trim part = x := by
  simp only [Addition.Offers, hread, Except.ok.injEq, exists_eq_left']
  exact and_congr_right fun hx => Text.exists_trim_lines_iff hx

/-- A file that cannot be read, or whose bytes spell no text, is refused. -/
theorem exists_readText_error
    (h : ∀ bytes, fs.readBytes path = .ok bytes → Utf8.decode? bytes = none) :
    ∃ e, fs.readText path = .error e := by
  cases hread : fs.readText path with
  | error e => exact ⟨e, rfl⟩
  | ok text =>
      have hnone := h _ (FileSystem.readText_eq_ok_iff.mp hread)
      rw [Utf8.decode?_encode] at hnone
      cases hnone

/-- A set after additions is the union of what it was and of what they offer:
trimmed names that are not blank, and such lines of the files that could be read.
So all additions that offer the same make the same set, in whatever order, how
often and in which groups they are made; its names are clean and stand in strict
order; and a list file that cannot be read is refused and leaves the set as it
was. -/
theorem addAll_union (hstart : s = baseline ∨ ∃ names, s = ofNames names)
    (additions : List Addition) :
    (∀ x, x ∈ (s.addAll additions).names ↔ x ∈ s.names ∨ ∃ a ∈ additions, a.Offers x) ∧
    (∀ fs path text, fs.readText path = .ok text → ∀ x, (Addition.listFile fs path).Offers x ↔
      x ≠ "" ∧ ∃ part ∈ Text.fields '\n' text, Text.trim part = x) ∧
    (∀ others : List Addition,
      (∀ x, (∃ a ∈ others, a.Offers x) ↔ ∃ a ∈ additions, a.Offers x) →
        s.addAll others = s.addAll additions) ∧
    (∀ others : List Addition, (∀ a, a ∈ others ↔ a ∈ additions) →
      s.addAll others = s.addAll additions) ∧
    (∀ groups : List (List Addition), groups.flatten = additions →
      groups.foldl (fun s group => s.extend ((ofNames []).addAll group).names) s =
        s.addAll additions) ∧
    (∀ x ∈ (s.addAll additions).names, x ≠ "" ∧ Text.trim x = x) ∧
    (s.addAll additions).names.Pairwise (fun x y => Utf8.encode x < Utf8.encode y) ∧
    ∀ fs path, (∀ bytes, fs.readBytes path = .ok bytes → Utf8.decode? bytes = none) →
      ∃ e, fs.readText path = .error e ∧ (s.addAll additions).add (.listFile fs path) =
        (.error (.configuration ("Unable to access list of extra modules to load " ++
          path.display ++ ": " ++ e.message)), s.addAll additions) := by
  have hs : s.Kept := by
    rcases hstart with rfl | ⟨names, rfl⟩ <;> exact kept_ofNames _
  have hkept := hs.addAll additions
  have hsame : ∀ others : List Addition,
      (∀ x, (∃ a ∈ others, a.Offers x) ↔ ∃ a ∈ additions, a.Offers x) →
        s.addAll others = s.addAll additions := by
    intro others hoffers
    refine (hs.addAll others).ext hkept fun x => ?_
    rw [mem_addAll, mem_addAll, hoffers]
  refine ⟨fun x => mem_addAll, fun fs path text hread x => offers_listFile_iff hread, hsame,
    fun others hmem => hsame others fun x => by simp only [hmem], ?_, hkept.trimmed,
    hkept.ordered.imp Utf8.encode_lt_encode, fun fs path hunreadable => ?_⟩
  · rintro groups rfl
    exact foldl_extend_addAll hs groups
  · obtain ⟨e, hread⟩ := exists_readText_error hunreadable
    exact ⟨e, hread, add_of_readText_error hread⟩

/-- List files with carriage returns and blanks, one of which is no text. -/
def listsHost : FileSystem where
  tree := .directory 0o755 [
    (Utf8.encode "extra", .file 0o644 (Utf8.encode " zlib \r\n\r\nmath\n\tzlib")),
    (Utf8.encode "broken", .file 0o644 [0x7A, 0xFF])]

/-- Names and list files, of which one is no text and one is missing. -/
def mixedAdditions : List Addition := [.listFile listsHost "/broken", .names ["math ", "", "\t"],
  .listFile listsHost "/extra", .listFile listsHost "/absent"]

theorem addAll_union_mixed :
    (baseline.addAll mixedAdditions).names =
      ["libgcc_s.so.1", "libnss_dns.so.2", "libnss_files.so.2", "math", "zlib"] ∧
    baseline.addAll (mixedAdditions.reverse ++ mixedAdditions) = baseline.addAll mixedAdditions ∧
    (∃ e, listsHost.readText "/broken" = .error e ∧
      (baseline.addAll mixedAdditions).add (.listFile listsHost "/broken") =
        (.error (.configuration ("Unable to access list of extra modules to load /broken: " ++
          e.message)), baseline.addAll mixedAdditions)) := by
  obtain ⟨-, -, -, hrepeat, -, -, -, hrefused⟩ := addAll_union (.inl rfl) mixedAdditions
  refine ⟨by decide +kernel, hrepeat _ fun a => by simp, hrefused listsHost "/broken" ?_⟩
  have hbroken : listsHost.readBytes "/broken" = .ok [0x7A, 0xFF] := rfl
  intro bytes hbytes
  obtain rfl := Except.ok.inj (hbroken.symm.trans hbytes)
  decide

end Confinement.ExtensionSet
