import Confinement.Proofs.SearchList.Apart

/-!
# The selection covers the search entries

Every entry that is worth staging is selected or lies below a directory that
is, and nothing else is selected (`selection_select`).  Entries are taken by
length, and entries of one length keep their order (`filter_byLength`).  A
selection is its own selection: its entries stand by length already, and none
of them lies at or below an earlier one (`foldl_consider_eq_append`).
-/

namespace Confinement.SearchList

variable {fs : FileSystem} {cwd : Path} {entries kept : List Path} {entry : Path}

/-- An entry is worth staging if it names a directory that does not lie at or
below the current one.  An empty current directory and the root exclude
nothing. -/
structure Eligible (fs : FileSystem) (cwd entry : Path) : Prop where
  nonempty : entry.bytes ≠ []
  directory : fs.isDirectory entry
  outside : cwd.bytes ≠ [] → ¬ cwd.Same .root → ¬ entry.isBelow cwd

theorem isEligible_iff : isEligible fs cwd entry ↔ Eligible fs cwd entry := by
  have hexcluded : (excludes cwd && entry.isBelow cwd) = false ↔
      (cwd.bytes ≠ [] → ¬ cwd.Same .root → ¬ entry.isBelow cwd) := by
    rw [Bool.and_eq_false_iff, excludes, Path.isEmpty]
    by_cases hsame : cwd.Same .root <;> by_cases hempty : cwd.bytes = [] <;> simp [hsame, hempty]
  have hnonempty : (!entry.isEmpty) = true ↔ entry.bytes ≠ [] := by simp [Path.isEmpty]
  rw [isEligible, Bool.and_eq_true, Bool.and_eq_true, hnonempty, Bool.not_eq_true', hexcluded]
  constructor
  · rintro ⟨⟨hnonempty, houtside⟩, hdirectory⟩
    exact ⟨hnonempty, hdirectory, houtside⟩
  · rintro ⟨hnonempty, hdirectory, houtside⟩
    exact ⟨⟨hnonempty, houtside⟩, hdirectory⟩

/-! ## Order -/

theorem byLength_perm (entries : List Path) : (byLength entries).Perm entries :=
  List.mergeSort_perm _ _

/-- Entries of one length keep their places among each other. -/
theorem filter_byLength (n : Nat) (entries : List Path) :
    (byLength entries).filter (·.length = n) = entries.filter (·.length = n) := by
  have hsame : (entries.filter (·.length = n)).Pairwise fun p q =>
      decide (p.length ≤ q.length) = true := by
    apply List.pairwise_of_forall_mem_list
    intro p hp q hq
    simp only [List.mem_filter, decide_eq_true_eq] at hp hq ⊢
    omega
  have hkept : (entries.filter (·.length = n)).Sublist (byLength entries) :=
    List.sublist_mergeSort length_le_trans length_le_total hsame List.filter_sublist
  have hfiltered := hkept.filter (·.length = n)
  rw [List.filter_filter] at hfiltered
  simp only [Bool.and_self] at hfiltered
  have hlength := ((byLength_perm entries).filter (·.length = n)).length_eq
  exact (hfiltered.eq_of_length hlength.symm).symm

/-- What is taken up stands in the order in which it was considered. -/
theorem foldl_consider_sublist (kept entries : List Path) :
    (entries.foldl (consider fs cwd) kept).Sublist (kept ++ entries) := by
  induction entries generalizing kept with
  | nil => rw [List.foldl_nil, List.append_nil]
  | cons entry entries ih =>
      rw [List.foldl_cons]
      refine (ih _).trans ?_
      rcases consider_cases fs cwd kept entry with ⟨-, -, heq⟩ | ⟨-, heq⟩
      · rw [heq, List.append_assoc, List.singleton_append]
      · rw [heq]
        exact (List.sublist_cons_self entry entries).append_left kept

theorem select_sublist (fs : FileSystem) (entries : List Path) (cwd : Path) :
    (select fs entries cwd).Sublist (byLength entries) :=
  foldl_consider_sublist [] (byLength entries)

/-- Eligible entries of which none lies at or below an earlier one are all
taken up. -/
theorem foldl_consider_eq_append (heligible : ∀ p ∈ entries, isEligible fs cwd p)
    (hfree : (kept ++ entries).Pairwise fun p q => ¬ q.isBelow p) :
    entries.foldl (consider fs cwd) kept = kept ++ entries := by
  induction entries generalizing kept with
  | nil => rw [List.foldl_nil, List.append_nil]
  | cons entry entries ih =>
      have habove : ∀ q ∈ kept, ¬ entry.isBelow q := by
        intro q hq
        exact (List.pairwise_append.mp hfree).2.2 q hq entry List.mem_cons_self
      rw [List.foldl_cons,
        consider_of_isEligible (heligible entry List.mem_cons_self) habove,
        ih (fun p hp => heligible p (List.mem_cons_of_mem entry hp)) (by simpa using hfree),
        List.append_assoc, List.singleton_append]

/-! ## The selection -/

/-- `selected` holds eligible entries only and misses none: each of them is
selected or lies below a selected one.  It stands by length, in the order of
the entries where lengths are equal, and no directory lies at or below an
earlier one. -/
structure Selection (fs : FileSystem) (cwd : Path) (entries selected : List Path) : Prop where
  eligible : ∀ p ∈ selected, p ∈ entries ∧ Eligible fs cwd p
  covered : ∀ p ∈ entries, Eligible fs cwd p → ∃ q ∈ selected, p.isBelow q
  byLength : selected.Pairwise fun p q => p.length ≤ q.length
  inOrder : ∀ n, (selected.filter (·.length = n)).Sublist entries
  apart : selected.Pairwise fun p q => ¬ q.isBelow p

theorem selection_select (fs : FileSystem) (entries : List Path) (cwd : Path) :
    Selection fs cwd entries (select fs entries cwd) where
  eligible p hp := by
    obtain ⟨hmem, heligible⟩ := mem_foldl_consider hp
    exact ⟨mem_byLength.mp hmem, isEligible_iff.mp heligible⟩
  covered p hp heligible :=
    exists_isBelow_foldl_consider (mem_byLength.mpr hp) (isEligible_iff.mpr heligible)
  byLength := (pairwise_byLength entries).sublist (select_sublist fs entries cwd)
  inOrder n := by
    have hkept := (select_sublist fs entries cwd).filter (·.length = n)
    rw [filter_byLength] at hkept
    exact hkept.trans List.filter_sublist
  apart := pairwise_foldl_consider _

/-- The directories of a selection are selected from it again. -/
theorem Selection.select_eq {selected : List Path} (h : Selection fs cwd entries selected) :
    select fs selected cwd = selected := by
  rw [select, byLength_of_pairwise h.byLength]
  exact foldl_consider_eq_append (fun p hp => isEligible_iff.mpr (h.eligible p hp).2) h.apart

/-- The selection covers the eligible entries, by length and in their order,
and selecting from it once more changes nothing. -/
theorem select_covers (fs : FileSystem) (entries : List Path) (cwd : Path) :
    Selection fs cwd entries (select fs entries cwd) ∧
      select fs (select fs entries cwd) cwd = select fs entries cwd :=
  ⟨selection_select fs entries cwd, (selection_select fs entries cwd).select_eq⟩

end Confinement.SearchList
