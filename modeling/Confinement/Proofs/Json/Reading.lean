import Confinement.Json.Value
import Confinement.Proofs.Outcome

/-!
# Readers that succeed

What a reader gives and what it leaves depends on what lies ahead of it; where
it stands matters for faults only.  `Reads r ahead a rest` says so of a reader
that succeeds.  A reader made of others is followed step by step
(`Reads.bind`), down to the elementary readers.
-/

namespace Confinement.Json

variable {α β : Type} {r : Reader α} {a : α} {b : β} {f : α → Reader β}
  {ahead middle rest : Bytes} {byte : UInt8}

/-- Wherever it stands, the reader gives `a` and leaves `rest` of what lies
ahead. -/
def Reads (r : Reader α) (ahead : Bytes) (a : α) (rest : Bytes) : Prop :=
  ∀ place, ∃ place', r.at ⟨place, ahead⟩ = (.ok a, ⟨place', rest⟩)

/-! ## Readers made of others -/

theorem reads_pure (a : α) (ahead : Bytes) : Reads (pure a) ahead a ahead :=
  fun place => ⟨place, rfl⟩

theorem Reads.bind (hr : Reads r ahead a middle) (hf : Reads (f a) middle b rest) :
    Reads (r >>= f) ahead b rest := by
  intro place
  obtain ⟨place', hr⟩ := hr place
  obtain ⟨place'', hf⟩ := hf place'
  exact ⟨place'', (run_bind_of_ok hr).trans hf⟩

/-- A reader that looks at its position sees what lies ahead. -/
theorem reads_get_bind {f : Cursor → Reader β}
    (h : ∀ place, Reads (f ⟨place, ahead⟩) ahead b rest) :
    Reads (get >>= f) ahead b rest :=
  fun place => h place place

theorem Reads.placed (h : Reads r ahead a rest) : Reads (placed r) ahead a rest := by
  intro place
  obtain ⟨place', hr⟩ := h place
  rw [Reader.at, ExceptT.run] at hr
  exact ⟨place', by simp only [Reader.at, Json.placed, ExceptT.run, hr]⟩

theorem Reads.followedBy {closing : Reader Unit} (h : Reads r ahead a middle)
    (hclosing : Reads closing middle () rest) : Reads (followedBy r closing) ahead a rest := by
  intro place
  obtain ⟨place', hr⟩ := h place
  obtain ⟨place'', hc⟩ := hclosing place'
  rw [Reader.at, ExceptT.run] at hr hc
  exact ⟨place'', by simp only [Reader.at, Json.followedBy, ExceptT.run, hr, hc]⟩

/-! ## Elementary readers -/

theorem reads_peek? (ahead : Bytes) : Reads peek? ahead ahead.head? ahead :=
  fun place => ⟨place, rfl⟩

theorem reads_pass (n : Nat) (ahead : Bytes) : Reads (pass n) ahead () (ahead.drop n) :=
  fun _ => ⟨_, rfl⟩

theorem reads_passWhile (test : UInt8 → Bool) (ahead : Bytes) :
    Reads (passWhile test) ahead (ahead.takeWhile test) (ahead.dropWhile test) := by
  have hdrop : ahead.drop (ahead.takeWhile test).length = ahead.dropWhile test :=
    calc ahead.drop (ahead.takeWhile test).length
        = (ahead.takeWhile test ++ ahead.dropWhile test).drop (ahead.takeWhile test).length := by
          rw [List.takeWhile_append_dropWhile]
      _ = ahead.dropWhile test := List.drop_left
  rw [← hdrop]
  exact reads_get_bind fun _ => (reads_pass _ ahead).bind (reads_pure _ _)

theorem reads_passWhile_append {test : UInt8 → Bool} {taken : Bytes}
    (htaken : ∀ x ∈ taken, test x = true) (hbyte : test byte = false) :
    Reads (passWhile test) (taken ++ byte :: rest) taken (byte :: rest) := by
  have hreads := reads_passWhile test (taken ++ byte :: rest)
  rwa [List.takeWhile_append_of_pos htaken, List.dropWhile_append_of_pos htaken,
    List.takeWhile_cons_of_neg (by simp [hbyte]), List.dropWhile_cons_of_neg (by simp [hbyte]),
    List.append_nil] at hreads

theorem reads_peekToken? (ahead : Bytes) :
    Reads peekToken? ahead (ahead.dropWhile isBlankByte).head? (ahead.dropWhile isBlankByte) :=
  (reads_passWhile isBlankByte ahead).bind (reads_peek? _)

theorem reads_peekToken (atEnd : Reason) (h : ahead.dropWhile isBlankByte = byte :: rest) :
    Reads (peekToken atEnd) ahead byte (byte :: rest) := by
  have htoken := reads_peekToken? ahead
  rw [h] at htoken
  exact htoken.bind (reads_pure byte _)

end Confinement.Json
