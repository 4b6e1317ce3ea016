import Confinement.Text.Blank

/-!
# Fields of a text

The stretches between two occurrences of a separator have no separator in them,
and what is put together from such stretches falls apart into them again
(`Text.fields_intercalate`).  So a text and the list of its fields say the same
(`Text.intercalate_fields`).
-/

namespace Confinement

/-! ## Stretches of a list -/

section

variable {α : Type} {a x : α} {l xs : List α} {ls : List (List α)}

/-- A stretch holds members of the list, and no separator. -/
theorem of_mem_splitOnP {p : α → Bool} (h : l ∈ xs.splitOnP p) (hx : x ∈ l) :
    p x = false ∧ x ∈ xs := by
  induction xs generalizing l with
  | nil =>
      rw [List.splitOnP_nil, List.mem_singleton] at h
      subst h
      cases hx
  | cons y xs ih =>
      rw [List.splitOnP_cons_eq_if_modifyHead] at h
      split at h
      · rcases List.mem_cons.mp h with rfl | h
        · cases hx
        · exact (ih h hx).imp_right (List.mem_cons_of_mem y)
      · rename_i hy
        -- What is no separator goes to the first stretch of the rest.
        obtain ⟨first, rest, hsplit⟩ := List.exists_cons_of_ne_nil (List.splitOnP_ne_nil p xs)
        rw [hsplit, List.modifyHead_cons] at h
        rcases List.mem_cons.mp h with rfl | h
        · rcases List.mem_cons.mp hx with rfl | hx
          · exact ⟨by simpa using hy, List.mem_cons_self⟩
          · exact (ih (hsplit ▸ List.mem_cons_self) hx).imp_right (List.mem_cons_of_mem y)
        · exact (ih (hsplit ▸ List.mem_cons_of_mem first h) hx).imp_right (List.mem_cons_of_mem y)

theorem notMem_of_mem_splitOn [BEq α] [LawfulBEq α] (h : l ∈ xs.splitOn a) : a ∉ l := by
  intro ha
  simpa using (of_mem_splitOnP h ha).1

theorem mem_intercalate (hl : l ∈ ls) (hx : x ∈ l) : x ∈ [a].intercalate ls := by
  induction ls with
  | nil => cases hl
  | cons m ls ih =>
      by_cases hnil : ls = []
      · subst hnil
        rw [List.intercalate_singleton, ← List.mem_singleton.mp hl]
        exact hx
      · rw [List.intercalate_cons_of_ne_nil hnil, List.append_assoc]
        rcases List.mem_cons.mp hl with rfl | hl
        · exact List.mem_append_left _ hx
        · exact List.mem_append_right _ (List.mem_append_right _ (ih hl))

end

namespace Text

variable {sep c : Char} {s part : String} {parts : List String}

/-! ## Fields -/

theorem fields_ne_nil (sep : Char) (s : String) : fields sep s ≠ [] := by
  rw [fields, ne_eq, List.map_eq_nil_iff]
  exact List.splitOn_ne_nil sep s.toList

theorem sep_notMem_of_mem_fields (h : part ∈ fields sep s) : sep ∉ part.toList := by
  obtain ⟨cs, hcs, rfl⟩ := List.mem_map.mp h
  rw [String.toList_ofList]
  exact notMem_of_mem_splitOn hcs

theorem mem_of_mem_fields (h : part ∈ fields sep s) (hc : c ∈ part.toList) : c ∈ s.toList := by
  obtain ⟨cs, hcs, rfl⟩ := List.mem_map.mp h
  rw [String.toList_ofList] at hc
  exact (of_mem_splitOnP hcs hc).2

/-- A text is its fields with the separator between them. -/
theorem intercalate_fields (sep : Char) (s : String) :
    String.intercalate (String.singleton sep) (fields sep s) = s := by
  apply String.toList_inj.mp
  rw [String.toList_intercalate, String.toList_singleton, fields, List.map_map]
  simp only [Function.comp_def, String.toList_ofList, List.map_id']
  exact List.intercalate_splitOn sep

/-- Texts without the separator are the fields of what they make. -/
theorem fields_intercalate (hne : parts ≠ []) (h : ∀ part ∈ parts, sep ∉ part.toList) :
    fields sep (String.intercalate (String.singleton sep) parts) = parts := by
  have hfree : ∀ cs ∈ parts.map String.toList, sep ∉ cs := by
    intro cs hcs
    obtain ⟨part, hpart, rfl⟩ := List.mem_map.mp hcs
    exact h part hpart
  rw [fields, String.toList_intercalate, String.toList_singleton,
    List.splitOn_intercalate sep hfree (by simpa using hne), List.map_map]
  simp only [Function.comp_def, String.ofList_toList, List.map_id']

theorem fields_of_notMem (h : sep ∉ s.toList) : fields sep s = [s] := by
  rw [fields, List.splitOn_eq_singleton h, List.map_singleton, String.ofList_toList]

/-! ## What stands before the first separator -/

theorem sep_notMem_before (sep : Char) (s : String) : sep ∉ (before sep s).toList := by
  rw [before, String.toList_ofList]
  intro hmem
  simpa using List.all_eq_true.mp (List.all_takeWhile (l := s.toList)) sep hmem

end Text

end Confinement
