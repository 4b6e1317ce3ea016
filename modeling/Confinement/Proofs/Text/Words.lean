import Confinement.Text.Blank

/-!
# Words and lines of a text

A text falls apart at its blanks (`wordChars_append_cons`), so the first word
of a text that does not begin with a blank is what stands before its first
blank (`head?_wordChars`).  A text made of lines falls apart into these lines,
each without the carriage return at its end (`lineChars_flatMap`).  That one
is a blank, and makes no difference to the words (`wordChars_dropReturn`).
-/

namespace Confinement.Text

/-- A text that is not empty and has no blanks. -/
structure IsWord (s : String) : Prop where
  ne_nil : s.toList ≠ []
  isBlank_eq_false : ∀ c ∈ s.toList, isBlank c = false

theorem isWord_iff {s : String} :
    IsWord s ↔ s.toList ≠ [] ∧ ∀ c ∈ s.toList, isBlank c = false :=
  ⟨fun ⟨a, b⟩ => ⟨a, b⟩, fun ⟨a, b⟩ => ⟨a, b⟩⟩

/-- The words of a text, as characters. -/
def wordChars (cs : List Char) : List (List Char) :=
  (cs.splitOnP isBlank).filter (!·.isEmpty)

theorem words_eq (s : String) : words s = (wordChars s.toList).map String.ofList := rfl

/-! ## Words -/

variable {b : Char} {cs : List Char}

theorem wordChars_append_cons (hb : isBlank b = true) (xs cs : List Char) :
    wordChars (xs ++ b :: cs) = wordChars xs ++ wordChars cs := by
  rw [wordChars, List.splitOnP_append_cons xs cs hb, List.filter_append]
  rfl

theorem wordChars_cons (hb : isBlank b = true) (cs : List Char) :
    wordChars (b :: cs) = wordChars cs :=
  wordChars_append_cons hb [] cs

theorem wordChars_replicate_append (hb : isBlank b = true) (n : Nat) (cs : List Char) :
    wordChars (List.replicate n b ++ cs) = wordChars cs := by
  induction n with
  | zero => rfl
  | succ n ih => rw [List.replicate_succ, List.cons_append, wordChars_cons hb, ih]

theorem wordChars_of_forall (hne : cs ≠ []) (h : ∀ c ∈ cs, isBlank c = false) :
    wordChars cs = [cs] := by
  rw [wordChars, List.splitOnP_eq_singleton h]
  simp [hne]

/-- A word comes off the front of a text, with the blank after it. -/
theorem IsWord.wordChars_append {w : String} (h : IsWord w) (hb : isBlank b = true)
    (cs : List Char) : wordChars (w.toList ++ b :: cs) = w.toList :: wordChars cs := by
  rw [wordChars_append_cons hb, wordChars_of_forall h.ne_nil h.isBlank_eq_false]
  rfl

/-- The first word of a text that does not begin with a blank. -/
theorem head?_wordChars (hne : cs ≠ []) (hfront : ∀ c ∈ cs.head?, isBlank c = false) :
    (wordChars cs).head? = some (cs.takeWhile (!isBlank ·)) := by
  have hword : cs.takeWhile (!isBlank ·) ≠ [] := by
    cases cs with
    | nil => exact absurd rfl hne
    | cons c cs => simp [hfront c rfl]
  have hnoBlank : ∀ c ∈ cs.takeWhile (!isBlank ·), isBlank c = false := by
    intro c hc
    have hall : (cs.takeWhile (!isBlank ·)).all (!isBlank ·) = true := List.all_takeWhile
    simpa using List.all_eq_true.mp hall c hc
  have hsplit : cs.takeWhile (!isBlank ·) ++ cs.dropWhile (!isBlank ·) = cs :=
    List.takeWhile_append_dropWhile
  -- The word is the whole text, or a blank ends it.
  cases hrest : cs.dropWhile (!isBlank ·) with
  | nil =>
      rw [hrest, List.append_nil] at hsplit
      rw [hsplit] at hnoBlank ⊢
      rw [wordChars_of_forall hne hnoBlank]
      rfl
  | cons b rest =>
      have hb : isBlank b = true := by
        have hhead := List.head?_dropWhile_not (!isBlank ·) cs
        rw [hrest] at hhead
        simpa using hhead
      rw [hrest] at hsplit
      calc (wordChars cs).head?
          = (wordChars (cs.takeWhile (!isBlank ·) ++ b :: rest)).head? := by rw [hsplit]
        _ = some (cs.takeWhile (!isBlank ·)) := by
          rw [wordChars_append_cons hb, wordChars_of_forall hword hnoBlank]
          rfl

/-! ## Lines -/

theorem wordChars_dropReturn (cs : List Char) : wordChars (dropReturn cs) = wordChars cs := by
  unfold dropReturn
  split
  · rename_i hlast
    obtain ⟨xs, rfl⟩ := List.getLast?_eq_some_iff.mp hlast
    rw [List.dropLast_concat, wordChars_append_cons (by decide)]
    exact (List.append_nil _).symm
  · rfl

theorem linesOf_concat_nil (ls : List (List Char)) :
    linesOf (ls ++ [[]]) = ls.map dropReturn := by
  induction ls with
  | nil => rfl
  | cons l ls ih =>
      rw [List.cons_append, List.map_cons, ← ih]
      cases ls <;> rfl

theorem splitOn_flatMap {ls : List (List Char)} (h : ∀ l ∈ ls, '\n' ∉ l) :
    (ls.flatMap (· ++ ['\n'])).splitOn '\n' = ls ++ [[]] := by
  induction ls with
  | nil => rfl
  | cons l ls ih =>
      rw [List.flatMap_cons, List.append_assoc, List.singleton_append,
        List.splitOn_append_cons_self, List.splitOn_eq_singleton (h l List.mem_cons_self),
        ih fun m hm => h m (List.mem_cons_of_mem l hm)]
      rfl

/-- Lines written one after the other, each with a line feed, are read back. -/
theorem lineChars_flatMap {ls : List (List Char)} (h : ∀ l ∈ ls, '\n' ∉ l) :
    lineChars (ls.flatMap (· ++ ['\n'])) = ls.map dropReturn := by
  rw [lineChars, splitOn_flatMap h, linesOf_concat_nil]

end Confinement.Text
