import Confinement.Proofs.Text.Words

/-!
# Lines without the blanks around them

All that is left of a line end is a carriage return, and that is a blank.  So
the lines of a text and the stretches between its line feeds are the same once
they are trimmed and the blank ones are left out (`exists_trim_lines_iff`), and
lines that are written are read back up to their blanks (`map_trim_lines_join`).
-/

namespace Confinement.Text

variable {b : Char} {cs : List Char} {s x : String} {names : List String}

theorem trimChars_concat (hb : isBlank b = true) (cs : List Char) :
    trimChars (cs ++ [b]) = trimChars cs := by
  rw [trimChars, trimChars, List.dropWhile_append]
  split
  · rename_i hempty
    rw [List.isEmpty_iff.mp hempty, List.dropWhile_cons_of_pos hb]
    rfl
  · rw [List.reverse_concat, List.dropWhile_cons_of_pos hb]

theorem trimChars_dropReturn (cs : List Char) : trimChars (dropReturn cs) = trimChars cs := by
  unfold dropReturn
  split
  · rename_i hlast
    obtain ⟨xs, rfl⟩ := List.getLast?_eq_some_iff.mp hlast
    rw [List.dropLast_concat, trimChars_concat (by decide)]
  · rfl

/-- The lines among some stretches have what the stretches have, but for
blanks. -/
theorem exists_trimChars_linesOf_iff (hcs : cs ≠ []) (ls : List (List Char)) :
    (∃ l ∈ linesOf ls, trimChars l = cs) ↔ ∃ l ∈ ls, trimChars l = cs := by
  fun_induction linesOf ls with
  | case1 => rfl
  | case2 last hempty =>
      -- The last stretch is no line if it is empty, and then it has nothing.
      obtain rfl := List.isEmpty_iff.mp hempty
      have hnil : trimChars [] ≠ cs := hcs.symm
      simpa using hnil
  | case3 last hempty => rfl
  | case4 l ls hne ih =>
      simp only [List.mem_cons, or_and_right, exists_or, exists_eq_left, trimChars_dropReturn, ih]

/-- What the lines of a text have stands between its line feeds. -/
theorem exists_trim_lines_iff (hx : x ≠ "") :
    (∃ line ∈ lines s, trim line = x) ↔ ∃ part ∈ fields '\n' s, trim part = x := by
  have hchars : ∀ ls : List (List Char), (∃ line ∈ ls.map String.ofList, trim line = x) ↔
      ∃ l ∈ ls, trimChars l = x.toList := by
    intro ls
    constructor
    · rintro ⟨_, hline, htrim⟩
      obtain ⟨l, hl, rfl⟩ := List.mem_map.mp hline
      exact ⟨l, hl, by simpa [trim] using congrArg String.toList htrim⟩
    · rintro ⟨l, hl, htrim⟩
      exact ⟨_, List.mem_map_of_mem hl, by simp [trim, htrim]⟩
  rw [lines, fields, hchars, hchars, lineChars]
  exact exists_trimChars_linesOf_iff (fun hnil => hx (String.toList_eq_nil_iff.mp hnil)) _

/-- Names written one a line are read back, but for blanks, if they have no line
feed. -/
theorem map_trim_lines_join (h : ∀ name ∈ names, '\n' ∉ name.toList) :
    (lines (String.join (names.map (· ++ "\n")))).map trim = names.map trim := by
  have hwritten : (String.join (names.map (· ++ "\n"))).toList =
      (names.map String.toList).flatMap (· ++ ['\n']) := by
    simp [String.toList_join, List.flatMap_map]
  rw [lines, hwritten, lineChars_flatMap (by simpa using h)]
  simp [trim, trimChars_dropReturn]

end Confinement.Text
