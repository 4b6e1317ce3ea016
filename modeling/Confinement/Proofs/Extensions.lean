import Mathlib.Data.List.DropRight
import Mathlib.Data.String.Basic
import Confinement.ExtensionSet
import Confinement.Proofs.Text.Utf8

/-!
# Extension sets as sets

An extension set lists its names in strict order, so equal sets are equal
lists.  `Ordered` is kept by every addition; membership after an addition is
membership before it or among the names that came in, trimmed and not blank
(`mem_extend`, `mem_clean`).
-/

namespace Confinement

/-- A file is read as the text that its bytes spell. -/
theorem FileSystem.readText_eq_ok_iff {fs : FileSystem} {path : Path} {text : String} :
    fs.readText path = .ok text ↔ fs.readBytes path = .ok (Utf8.encode text) := by
  rw [readText]
  cases fs.readBytes path with
  | error e => simp [bind, Except.bind]
  | ok bytes =>
      have hdecode : Utf8.decode? bytes = some text ↔ bytes = Utf8.encode text :=
        Utf8.decode?_eq_some_iff.trans eq_comm
      rw [Except.ok.injEq, ← hdecode]
      cases htext : Utf8.decode? bytes <;> simp [bind, Except.bind, htext]

namespace ExtensionSet

/-- The names of a set stand in strict order. -/
def Ordered (s : ExtensionSet) : Prop := s.names.Pairwise (· < ·)

/-! ## Order -/

theorem pairwise_insertName (name : String) {names : List String}
    (h : names.Pairwise (· < ·)) : (insertName name names).Pairwise (· < ·) := by
  -- The name stops before the first that is greater, or at itself; so the three cases are those of
  -- the comparison with the head.
  induction names with
  | nil => exact List.pairwise_singleton _ _
  | cons other rest ih =>
      rw [List.pairwise_cons] at h
      by_cases hlt : name < other
      · rw [insertName, if_pos hlt, List.pairwise_cons, List.pairwise_cons]
        refine ⟨?_, h⟩
        intro x hx
        rcases List.mem_cons.mp hx with rfl | hx
        · exact hlt
        · exact hlt.trans (h.1 x hx)
      · by_cases heq : name = other
        · rw [insertName, if_neg hlt, if_pos heq]
          exact List.pairwise_cons.mpr h
        · rw [insertName, if_neg hlt, if_neg heq, List.pairwise_cons]
          refine ⟨?_, ih h.2⟩
          intro x hx
          rcases mem_insertName.mp hx with rfl | hx
          · exact lt_of_le_of_ne (not_lt.mp hlt) (Ne.symm heq)
          · exact h.1 x hx

theorem Ordered.insert {s : ExtensionSet} (h : s.Ordered) (name : String) :
    (s.insert name).Ordered :=
  pairwise_insertName name h

theorem Ordered.foldl_insert {s : ExtensionSet} (h : s.Ordered) (names : List String) :
    (names.foldl ExtensionSet.insert s).Ordered := by
  induction names generalizing s with
  | nil => exact h
  | cons name rest ih => exact ih (h.insert name)

theorem Ordered.extend {s : ExtensionSet} (h : s.Ordered) (names : List String) :
    (s.extend names).Ordered :=
  h.foldl_insert _

theorem ordered_baseline : baseline.Ordered := Ordered.extend List.Pairwise.nil _

/-! ## Membership -/

theorem mem_foldl_insert {s : ExtensionSet} {names : List String} {x : String} :
    x ∈ (names.foldl ExtensionSet.insert s).names ↔ x ∈ s.names ∨ x ∈ names := by
  induction names generalizing s with
  | nil => simp
  | cons name rest ih =>
      rw [List.foldl_cons, ih, ExtensionSet.insert, mem_insertName, List.mem_cons]
      tauto

theorem mem_extend {s : ExtensionSet} {names : List String} {x : String} :
    x ∈ (s.extend names).names ↔ x ∈ s.names ∨ x ∈ clean names :=
  mem_foldl_insert

theorem mem_clean {names : List String} {x : String} :
    x ∈ clean names ↔ x ≠ "" ∧ ∃ line ∈ names, Text.trim line = x := by
  simp only [clean, List.mem_filter, List.mem_map, Bool.not_eq_eq_eq_not, Bool.not_true,
    String.isEmpty_eq_false_iff]
  exact and_comm

/-! ## List files -/

theorem trimChars_trimChars (cs : List Char) :
    Text.trimChars (Text.trimChars cs) = Text.trimChars cs := by
  -- Only the front needs an argument: what the back loses is gone after one pass, and a list that
  -- starts with no blank still does when its back is cut off.
  have hfront : (Text.trimChars cs).dropWhile Text.isBlank = Text.trimChars cs := by
    rw [List.dropWhile_eq_self_iff]
    intro hpos hblank
    have htail : Text.trimChars cs <+: cs.dropWhile Text.isBlank :=
      List.rdropWhile_prefix Text.isBlank _
    have hidle : (cs.dropWhile Text.isBlank).dropWhile Text.isBlank =
        cs.dropWhile Text.isBlank := List.dropWhile_idempotent Text.isBlank cs
    rw [List.dropWhile_eq_self_iff] at hidle
    apply hidle (hpos.trans_le htail.length_le)
    rw [← hblank]
    congr 1
    exact (htail.getElem hpos).symm
  have hback : (Text.trimChars cs).rdropWhile Text.isBlank = Text.trimChars cs :=
    List.rdropWhile_idempotent Text.isBlank _
  calc Text.trimChars (Text.trimChars cs)
      = ((Text.trimChars cs).dropWhile Text.isBlank).rdropWhile Text.isBlank := rfl
    _ = Text.trimChars cs := by rw [hfront, hback]

theorem trim_trim (s : String) : Text.trim (Text.trim s) = Text.trim s := by
  simp [Text.trim, trimChars_trimChars]

/-- What a text lists is clean already. -/
theorem mem_clean_listed {text x : String} :
    x ∈ clean (listed text) ↔ x ≠ "" ∧ ∃ line ∈ Text.lines text, Text.trim line = x := by
  simp only [listed, mem_clean]
  constructor
  · rintro ⟨hne, _, ⟨-, line, hline, rfl⟩, rfl⟩
    exact ⟨hne, line, hline, (trim_trim line).symm⟩
  · rintro ⟨hne, line, hline, rfl⟩
    exact ⟨hne, _, ⟨hne, line, hline, rfl⟩, trim_trim line⟩

theorem readList_of_readText {fs : FileSystem} {path : Path} {text : String}
    (hread : fs.readText path = .ok text) : readList fs path = .ok (listed text) := by
  simp [readList, hread, Except.mapError, bind, Except.bind, pure, Except.pure]

theorem mergeFile_of_readText {fs : FileSystem} {path : Path} {text : String}
    (hread : fs.readText path = .ok text) (s : ExtensionSet) :
    (mergeFile fs s path).1 = .ok (s.extend (listed text)) := by
  simp only [mergeFile, readList_of_readText hread]

theorem mergeFile_of_readText_error {fs : FileSystem} {path : Path} {e : IoError}
    (hread : fs.readText path = .error e) (s : ExtensionSet) :
    (mergeFile fs s path).1 = .error ⟨path, e⟩ := by
  have hlist : readList fs path = .error ⟨path, e⟩ := by
    simp [readList, hread, Except.mapError, bind, Except.bind]
  simp only [mergeFile, hlist]

/-- A merge that succeeds has read the list file, and adds what it lists. -/
theorem mergeFile_eq_ok {fs : FileSystem} {s merged : ExtensionSet} {path : Path}
    (h : (mergeFile fs s path).1 = .ok merged) :
    ∃ text, fs.readText path = .ok text ∧ merged = s.extend (listed text) := by
  cases hread : fs.readText path with
  | error e =>
      rw [mergeFile_of_readText_error hread] at h
      cases h
  | ok text =>
      rw [mergeFile_of_readText hread, Except.ok.injEq] at h
      exact ⟨text, rfl, h.symm⟩

end ExtensionSet

end Confinement
