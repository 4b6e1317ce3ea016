import Confinement.Proofs.Json.Reading

/-!
# JSON lists read back

A list is written with blanks in front of each element and of its closing
bracket (`Spelled`, `followers`).  Its reader takes one element after the other
and stops before the bracket (`reads_elementsWithin`), so it gives the elements
back and leaves what stands behind the bracket (`reads_list_cons`,
`reads_list_nil`).
-/

namespace Confinement.Json

variable {α : Type} {element : Reader α} {spell : α → Bytes} {gap last ahead rest : Bytes}
  {byte : UInt8}

/-- Elements are read back as they are spelled, and none begins like a blank or
like the end of the list. -/
structure Spelled (element : Reader α) (spell : α → Bytes) : Prop where
  reads : ∀ a rest, Reads element (spell a ++ rest) a rest
  begins : ∀ a, ∃ byte more, spell a = byte :: more ∧ isBlankByte byte = false ∧ byte ≠ 0x5D

/-- The elements of a list after its first one, each with a comma and blanks in
front of it. -/
def followers (gap : Bytes) (spell : α → Bytes) (as : List α) : Bytes :=
  as.flatMap fun a => 0x2C :: (gap ++ spell a)

/-! ## Between two elements -/

theorem reads_moreElements_end (h : ahead.dropWhile isBlankByte = 0x5D :: rest) (first : Bool) :
    Reads (moreElements first) ahead false (0x5D :: rest) := by
  refine (reads_peekToken .endInList h).bind ?_
  rw [if_pos rfl]
  exact reads_pure false _

theorem reads_moreElements_first (h : ahead.dropWhile isBlankByte = byte :: rest)
    (hbyte : byte ≠ 0x5D) : Reads (moreElements true) ahead true (byte :: rest) := by
  refine (reads_peekToken .endInList h).bind ?_
  rw [if_neg hbyte, if_pos rfl]
  exact reads_pure true _

theorem reads_moreElements_comma (h : ahead.dropWhile isBlankByte = byte :: rest)
    (hbyte : byte ≠ 0x5D) : Reads (moreElements false) (0x2C :: ahead) true (byte :: rest) := by
  refine (reads_peekToken .endInList rfl).bind ?_
  rw [if_neg (by decide), if_neg Bool.false_ne_true, if_pos rfl]
  refine (reads_pass 1 _).bind ((reads_peekToken .endInValue h).bind ?_)
  rw [if_neg hbyte]
  exact reads_pure true _

/-! ## Elements -/

theorem Spelled.dropWhile_gap (h : Spelled element spell) (hgap : ∀ x ∈ gap, isBlankByte x = true)
    (a : α) (rest : Bytes) : ∃ byte more, spell a ++ rest = byte :: more ∧ byte ≠ 0x5D ∧
      (gap ++ (spell a ++ rest)).dropWhile isBlankByte = byte :: more := by
  obtain ⟨byte, more, hspell, hblank, hbracket⟩ := h.begins a
  refine ⟨byte, more ++ rest, by rw [hspell]; rfl, hbracket, ?_⟩
  rw [List.dropWhile_append_of_pos hgap, hspell, List.cons_append,
    List.dropWhile_cons_of_neg (by simp [hblank])]

/-- The elements after the first one are read back, up to the closing bracket. -/
theorem reads_elementsWithin (h : Spelled element spell) (hgap : ∀ x ∈ gap, isBlankByte x = true)
    (hlast : last.dropWhile isBlankByte = 0x5D :: rest) {as : List α} {bound : Nat}
    (hbound : as.length < bound) :
    Reads (elementsWithin element bound false) (followers gap spell as ++ last) as
      (0x5D :: rest) := by
  -- The bound goes down with each element that is read.
  induction as generalizing bound with
  | nil =>
      obtain ⟨bound, rfl⟩ := Nat.exists_eq_add_one.mpr hbound
      exact (reads_moreElements_end hlast false).bind (reads_pure [] _)
  | cons a as ih =>
      obtain ⟨bound, rfl⟩ := Nat.exists_eq_add_one.mpr (Nat.zero_lt_of_lt hbound)
      have hbound : as.length < bound := by simpa using hbound
      obtain ⟨byte, more, hspell, hbracket, hgap'⟩ :=
        h.dropWhile_gap hgap a (followers gap spell as ++ last)
      have hahead : followers gap spell (a :: as) ++ last =
          0x2C :: (gap ++ (spell a ++ (followers gap spell as ++ last))) := by
        simp [followers]
      rw [hahead]
      refine (reads_moreElements_comma hgap' hbracket).bind ?_
      rw [if_pos rfl, ← hspell]
      exact (h.reads a _).bind ((ih hbound).bind (reads_pure (a :: as) _))

theorem length_le_length_followers (gap : Bytes) (spell : α → Bytes) (as : List α) :
    as.length ≤ (followers gap spell as).length := by
  induction as with
  | nil => exact Nat.le_refl 0
  | cons a as ih =>
      rw [followers, List.flatMap_cons, ← followers, List.length_append, List.length_cons,
        List.length_cons]
      omega

/-! ## Lists -/

theorem reads_endList (rest : Bytes) : Reads endList (0x5D :: rest) () rest := by
  refine (reads_peekToken .endInList rfl).bind ?_
  rw [if_pos rfl]
  exact reads_pass 1 _

theorem reads_list_nil (element : Reader α) (hlast : last.dropWhile isBlankByte = 0x5D :: rest) :
    Reads (list element) (0x5B :: last) [] rest := by
  refine Reads.placed ((reads_peekToken .endInValue rfl).bind ?_)
  rw [if_pos rfl]
  refine (reads_pass 1 _).bind (Reads.followedBy (reads_get_bind fun place => ?_)
    (reads_endList rest))
  exact (reads_moreElements_end hlast true).bind (reads_pure [] _)

/-- A list with elements is read back. -/
theorem reads_list_cons (h : Spelled element spell) (hgap : ∀ x ∈ gap, isBlankByte x = true)
    (hlast : last.dropWhile isBlankByte = 0x5D :: rest) (a : α) (as : List α) :
    Reads (list element) (0x5B :: (gap ++ (spell a ++ (followers gap spell as ++ last)))) (a :: as)
      rest := by
  refine Reads.placed ((reads_peekToken .endInValue rfl).bind ?_)
  rw [if_pos rfl]
  refine (reads_pass 1 _).bind (Reads.followedBy (reads_get_bind fun place => ?_)
    (reads_endList rest))
  obtain ⟨byte, more, hspell, hbracket, hgap'⟩ :=
    h.dropWhile_gap hgap a (followers gap spell as ++ last)
  refine (reads_moreElements_first hgap' hbracket).bind ?_
  rw [if_pos rfl, ← hspell]
  refine (h.reads a _).bind ((reads_elementsWithin h hgap hlast ?_).bind (reads_pure (a :: as) _))
  -- Each element takes a byte at least, so the bytes ahead are bound enough for the elements.
  have hfollowers := length_le_length_followers gap spell as
  obtain ⟨byte, more, hbyte, -, -⟩ := h.begins a
  simp only [hbyte, List.drop_succ_cons, List.drop_zero, List.length_append, List.length_cons]
  omega

end Confinement.Json
