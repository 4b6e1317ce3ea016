import Confinement.Proofs.Path.Nesting
import Confinement.SearchList

/-!
# When the selected directories lie apart

The selection takes entries by their length and drops one that lies at or
below a directory kept before.  A later directory therefore never lies at or
below an earlier one (`pairwise_foldl_consider`).  The converse depends on the
spelling: `/a/////` is longer than `/a/b` and lies above it.

`pairwise_apart_foldl_consider_iff` is the exact condition.  A list is
`ShallowFirst` when no entry that is taken up lies above an entry considered
before it, and that is so as soon as an entry above another is spelled shorter
(`shallowFirst_of_length`).
-/

namespace Confinement.SearchList

variable {fs : FileSystem} {cwd : Path}

/-! ## One more entry -/

theorem consider_of_isEligible {kept : List Path} {entry : Path}
    (heligible : isEligible fs cwd entry) (hfree : ∀ q ∈ kept, ¬ entry.isBelow q) :
    consider fs cwd kept entry = kept ++ [entry] := by
  have hany : kept.any entry.isBelow = false := by
    rw [List.any_eq_false]
    exact hfree
  simp [consider, heligible, hany]

/-- An entry is taken up at the end, or the list stays as it was. -/
theorem consider_cases (fs : FileSystem) (cwd : Path) (kept : List Path) (entry : Path) :
    (isEligible fs cwd entry ∧ (∀ q ∈ kept, ¬ entry.isBelow q) ∧
        consider fs cwd kept entry = kept ++ [entry]) ∨
      ((isEligible fs cwd entry → ∃ q ∈ kept, entry.isBelow q) ∧
        consider fs cwd kept entry = kept) := by
  by_cases heligible : isEligible fs cwd entry
  · by_cases hbelow : ∃ q ∈ kept, entry.isBelow q
    · refine Or.inr ⟨fun _ => hbelow, ?_⟩
      have hany : kept.any entry.isBelow = true := List.any_eq_true.mpr hbelow
      simp [consider, hany]
    · have hfree : ∀ q ∈ kept, ¬ entry.isBelow q := fun q hq hlies => hbelow ⟨q, hq, hlies⟩
      exact Or.inl ⟨heligible, hfree, consider_of_isEligible heligible hfree⟩
  · refine Or.inr ⟨fun h => absurd h heligible, ?_⟩
    simp [consider, heligible]

/-! ## All entries -/

theorem foldl_consider_concat (entries : List Path) (entry : Path) :
    (entries ++ [entry]).foldl (consider fs cwd) [] =
      consider fs cwd (entries.foldl (consider fs cwd) []) entry := by
  rw [List.foldl_append, List.foldl_cons, List.foldl_nil]

theorem prefix_foldl_consider (fs : FileSystem) (cwd : Path) (kept entries : List Path) :
    kept <+: entries.foldl (consider fs cwd) kept := by
  induction entries generalizing kept with
  | nil => exact List.prefix_refl _
  | cons entry entries ih =>
      refine List.IsPrefix.trans ?_ (ih _)
      rcases consider_cases fs cwd kept entry with ⟨-, -, heq⟩ | ⟨-, heq⟩
      · rw [heq]
        exact List.prefix_append _ _
      · rw [heq]

/-- Only eligible entries are kept. -/
theorem mem_foldl_consider {entries : List Path} {p : Path}
    (hp : p ∈ entries.foldl (consider fs cwd) []) : p ∈ entries ∧ isEligible fs cwd p := by
  induction entries using List.reverseRecOn with
  | nil => simp at hp
  | append_singleton entries entry ih =>
      rw [foldl_consider_concat] at hp
      rcases consider_cases fs cwd
        (entries.foldl (consider fs cwd) []) entry with ⟨heligible, -, heq⟩ | ⟨-, heq⟩
      · rw [heq] at hp
        rcases List.mem_append.mp hp with hp | hp
        · exact ⟨List.mem_append_left _ (ih hp).1, (ih hp).2⟩
        · obtain rfl := List.mem_singleton.mp hp
          exact ⟨by simp, heligible⟩
      · rw [heq] at hp
        exact ⟨List.mem_append_left _ (ih hp).1, (ih hp).2⟩

theorem isDirectory_of_mem_select {entries : List Path} {p : Path}
    (hp : p ∈ select fs entries cwd) :
    fs.isDirectory p := by
  have heligible := (mem_foldl_consider hp).2
  rw [isEligible, Bool.and_eq_true] at heligible
  exact heligible.2

/-- Every eligible entry lies at or below one that is kept. -/
theorem exists_isBelow_foldl_consider {entries : List Path} {p : Path} (hp : p ∈ entries)
    (heligible : isEligible fs cwd p) :
    ∃ q ∈ entries.foldl (consider fs cwd) [], p.isBelow q := by
  induction entries using List.reverseRecOn with
  | nil => simp at hp
  | append_singleton entries entry ih =>
      rw [foldl_consider_concat]
      have hkept := prefix_foldl_consider fs cwd
        (entries.foldl (consider fs cwd) []) [entry]
      rcases List.mem_append.mp hp with hp | hp
      · obtain ⟨q, hq, hbelow⟩ := ih hp
        exact ⟨q, hkept.subset hq, hbelow⟩
      · obtain rfl := List.mem_singleton.mp hp
        -- The last entry is kept itself, or something above it is.
        rcases consider_cases fs cwd
          (entries.foldl (consider fs cwd) []) p with ⟨-, -, heq⟩ | ⟨hcovered, heq⟩
        · exact ⟨p, by rw [heq]; simp, Path.isBelow_refl p⟩
        · rw [heq]
          exact hcovered heligible

/-- A directory kept later never lies at or below one kept earlier. -/
theorem pairwise_foldl_consider (entries : List Path) :
    (entries.foldl (consider fs cwd) []).Pairwise fun p q => ¬ q.isBelow p := by
  induction entries using List.reverseRecOn with
  | nil => exact List.Pairwise.nil
  | append_singleton entries entry ih =>
      rw [foldl_consider_concat]
      rcases consider_cases fs cwd
        (entries.foldl (consider fs cwd) []) entry with ⟨-, hfree, heq⟩ | ⟨-, heq⟩
      · rw [heq, List.pairwise_append]
        refine ⟨ih, List.pairwise_singleton _ _, ?_⟩
        intro q hq p hp
        obtain rfl := List.mem_singleton.mp hp
        exact hfree q hq
      · rwa [heq]

/-! ## The exact condition -/

/-- No entry that is taken up lies above an entry considered before it.  An
eligible entry is taken up when nothing eligible before it lies at or above
it. -/
def ShallowFirst (fs : FileSystem) (cwd : Path) (entries : List Path) : Prop :=
  ∀ before q after, entries = before ++ q :: after → isEligible fs cwd q →
    (∀ p ∈ before, isEligible fs cwd p → ¬ q.isBelow p) →
      ∀ p ∈ before, isEligible fs cwd p → ¬ p.isBelow q

theorem ShallowFirst.of_concat {entries : List Path} {entry : Path}
    (h : ShallowFirst fs cwd (entries ++ [entry])) : ShallowFirst fs cwd entries := by
  intro before q after hsplit
  exact h before q (after ++ [entry]) (by rw [hsplit]; simp)

/-- In a list that is `ShallowFirst` all directories kept lie apart. -/
theorem ShallowFirst.pairwise_apart {entries : List Path} (h : ShallowFirst fs cwd entries) :
    (entries.foldl (consider fs cwd) []).Pairwise Path.Apart := by
  induction entries using List.reverseRecOn with
  | nil => exact List.Pairwise.nil
  | append_singleton entries entry ih =>
      rw [foldl_consider_concat]
      rcases consider_cases fs cwd
        (entries.foldl (consider fs cwd) []) entry with ⟨heligible, hfree, heq⟩ | ⟨-, heq⟩
      · rw [heq, List.pairwise_append]
        refine ⟨ih h.of_concat, List.pairwise_singleton _ _, ?_⟩
        intro p hp q hq
        obtain rfl := List.mem_singleton.mp hq
        refine ⟨?_, hfree p hp⟩
        -- nothing considered before `q` lies at or above it: what is kept would as well
        have hnone : ∀ r ∈ entries, isEligible fs cwd r → ¬ q.isBelow r := by
          intro r hr hreligible hbelow
          obtain ⟨k, hk, hrk⟩ := exists_isBelow_foldl_consider hr hreligible
          exact hfree k hk (Path.isBelow_trans hbelow hrk)
        obtain ⟨hpmem, hpeligible⟩ := mem_foldl_consider hp
        exact h entries q [] rfl heligible hnone p hpmem hpeligible
      · rw [heq]
        exact ih h.of_concat

/-- If the directories kept lie apart, the list was `ShallowFirst`. -/
theorem shallowFirst_of_pairwise_apart {entries : List Path}
    (hapart : (entries.foldl (consider fs cwd) []).Pairwise Path.Apart) :
    ShallowFirst fs cwd entries := by
  intro before q after hsplit heligible hnone p hp hpeligible hbelow
  have hfree : ∀ k ∈ before.foldl (consider fs cwd) [], ¬ q.isBelow k := by
    intro k hk
    obtain ⟨hmem, hkeligible⟩ := mem_foldl_consider hk
    exact hnone k hmem hkeligible
  -- so `q` is kept, right after what was kept of the entries before it
  have hkept : before.foldl (consider fs cwd) [] ++ [q] <+:
      entries.foldl (consider fs cwd) [] := by
    rw [hsplit, List.foldl_append, List.foldl_cons, consider_of_isEligible heligible hfree]
    exact prefix_foldl_consider _ _ _ _
  have hpair := hapart.sublist hkept.sublist
  rw [List.pairwise_append] at hpair
  obtain ⟨k, hk, hpk⟩ := exists_isBelow_foldl_consider hp hpeligible
  -- both `k` and `q` lie at or above `p`, so one lies at or above the other
  have hkq : k.Apart q := hpair.2.2 k hk q (by simp)
  rcases Path.isBelow_or_isBelow_of_isBelow hpk hbelow with h | h
  · exact hkq.1 h
  · exact hkq.2 h

theorem pairwise_apart_foldl_consider_iff {entries : List Path} :
    (entries.foldl (consider fs cwd) []).Pairwise Path.Apart ↔ ShallowFirst fs cwd entries :=
  ⟨shallowFirst_of_pairwise_apart, ShallowFirst.pairwise_apart⟩

/-! ## Entries by their length -/

theorem mem_byLength {entries : List Path} {p : Path} : p ∈ byLength entries ↔ p ∈ entries :=
  List.mem_mergeSort

theorem byLength_of_pairwise {entries : List Path}
    (h : entries.Pairwise fun p q => p.length ≤ q.length) : byLength entries = entries :=
  List.mergeSort_of_pairwise (h.imp fun hle => decide_eq_true hle)

theorem length_le_trans (p q r : Path) (hpq : decide (p.length ≤ q.length) = true)
    (hqr : decide (q.length ≤ r.length) = true) : decide (p.length ≤ r.length) = true := by
  simp only [decide_eq_true_eq] at hpq hqr ⊢
  exact hpq.trans hqr

theorem length_le_total (p q : Path) :
    (decide (p.length ≤ q.length) || decide (q.length ≤ p.length)) = true := by
  simp only [Bool.or_eq_true, decide_eq_true_eq]
  exact Nat.le_total _ _

theorem pairwise_byLength (entries : List Path) :
    (byLength entries).Pairwise fun p q => p.length ≤ q.length := by
  have hsorted : (byLength entries).Pairwise fun p q => decide (p.length ≤ q.length) = true :=
    List.pairwise_mergeSort length_le_trans length_le_total entries
  exact hsorted.imp fun h => of_decide_eq_true h

/-- Entries taken by length are `ShallowFirst` when an entry that lies above
another is spelled shorter. -/
theorem shallowFirst_of_length {entries : List Path}
    (h : ∀ p ∈ entries, ∀ q ∈ entries, p.isBelow q → q.isBelow p ∨ q.length < p.length) :
    ShallowFirst fs cwd (byLength entries) := by
  intro before q after hsplit heligible hnone p hp hpeligible hbelow
  have hpmem : p ∈ byLength entries := by
    rw [hsplit]
    exact List.mem_append_left _ hp
  have hqmem : q ∈ byLength entries := by
    rw [hsplit]
    simp
  rcases h p (mem_byLength.mp hpmem) q (mem_byLength.mp hqmem) hbelow with habove | hlt
  · exact hnone p hp hpeligible habove
  · -- Sorted by length, the longer of the two would come second.
    have hsorted := pairwise_byLength entries
    rw [hsplit, List.pairwise_append] at hsorted
    have hle := hsorted.2.2 p hp q (by simp)
    omega

/-- The selected directories lie apart if and only if no directory is
considered after one that lies below it, and that is so when directories are
spelled shorter than those below them.  Whatever the spelling, none lies at or
below one selected before it. -/
theorem select_pairwise_apart_iff (fs : FileSystem) (entries : List Path) (cwd : Path) :
    ((select fs entries cwd).Pairwise fun p q => ¬ q.isBelow p) ∧
      ((select fs entries cwd).Pairwise Path.Apart ↔
        ShallowFirst fs cwd (byLength entries)) ∧
      ((∀ p ∈ entries, ∀ q ∈ entries, p.isBelow q → q.isBelow p ∨ q.length < p.length) →
        (select fs entries cwd).Pairwise Path.Apart) := by
  refine ⟨pairwise_foldl_consider _, pairwise_apart_foldl_consider_iff, ?_⟩
  intro hlength
  exact (shallowFirst_of_length hlength).pairwise_apart

/-- Slashes at the end make `/a` longer than `/a/b`, so both are selected. -/
theorem select_not_apart_of_slashes :
    let tree := Node.directory 0o755 [([0x61], .directory 0o755 [([0x62], .directory 0o755 [])])]
    let shallow := Path.ofString "/a/////"
    let deep := Path.ofString "/a/b"
    ¬ (select { tree } [deep, shallow] .root).Pairwise Path.Apart := by
  intro tree shallow deep
  rw [select, byLength_of_pairwise (by decide)]
  decide +kernel

end Confinement.SearchList
