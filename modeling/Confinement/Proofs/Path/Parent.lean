import Confinement.Proofs.Path.Words

/-!
# The parent of a path

Where the last word of a path is no `.` and another turn stands before it, the
parent of the path ends in that turn.  Its bytes begin the bytes of the path,
so it starts at the same place and is shorter (`exists_parent?_eq_some`).  The
parent of any path takes some of its first turns (`begins_of_parent?`).
-/

namespace Confinement.Path

variable {p : Path} {name : Bytes}

theorem ne_nil_of_mem_words (h : name ∈ p.words) : name ≠ [] := by
  rw [words, List.mem_filter] at h
  simpa using h.2

/-- Idle segments at the end are cut off behind a segment that counts. -/
theorem trimIdle_append {before after : List Bytes} (hname : ¬ isIdle name)
    (hafter : ∀ segment ∈ after, isIdle segment) (leading : Bool) :
    trimIdle leading (before ++ name :: after) = before ++ [name] := by
  have hidle : ∀ segment ∈ after.reverse, isIdle segment :=
    fun segment hmem => hafter segment (List.mem_reverse.mp hmem)
  have hdrop : ∀ before : List Bytes,
      ((before ++ name :: after).reverse.dropWhile isIdle).reverse = before ++ [name] := by
    intro before
    have hreverse : (before ++ name :: after).reverse =
        after.reverse ++ name :: before.reverse := by simp
    rw [hreverse, List.dropWhile_append_of_pos hidle, List.dropWhile_cons_of_neg hname]
    simp
  -- The first segment is treated on its own: a dot there is idle only behind a slash.
  cases before with
  | nil =>
      have hnil : after.reverse.dropWhile isIdle = [] := by
        rw [← List.append_nil after.reverse, List.dropWhile_append_of_pos hidle]
        rfl
      simp [trimIdle, hnil, hname]
  | cons first before =>
      rw [List.cons_append, trimIdle, hdrop before]
      simp

/-- The segments of a path behind the slash it may begin with. -/
theorem segments_eq (p : Path) :
    p.segments = (if p.isAbsolute then [[]] else []) ++
      (if p.isAbsolute then p.segments.drop 1 else p.segments) := by
  split
  · rename_i habs
    rw [isAbsolute, decide_eq_true_iff] at habs
    obtain ⟨bytes, hbytes⟩ := List.head?_eq_some_iff.mp habs
    have hp : p = ⟨[] ++ slash :: bytes⟩ := congrArg Path.mk hbytes
    rw [hp, segments_append_slash]
    rfl
  · rfl

/-- A segment that survives a filter, and what stands around it. -/
theorem exists_append_of_filter_eq {f : Bytes → Bool} {segments before : List Bytes}
    (h : segments.filter f = before ++ [name]) :
    ∃ front back, segments = front ++ name :: back ∧ front.filter f = before ∧
      ∀ segment ∈ back, f segment = false := by
  obtain ⟨front, rest, hsegments, hfront, hrest⟩ := List.filter_eq_append_iff.mp h
  obtain ⟨skipped, back, hcons, hskipped, -, hback⟩ := List.filter_eq_cons_iff.mp hrest
  refine ⟨front ++ skipped, back, ?_, ?_, ?_⟩
  · rw [hsegments, hcons, List.append_assoc]
  · have hnone : skipped.filter f = [] := by
      rw [List.filter_eq_nil_iff]
      exact hskipped
    rw [List.filter_append, hfront, hnone, List.append_nil]
  · intro segment hmem
    have hnot := List.filter_eq_nil_iff.mp hback segment hmem
    simpa using hnot

/-- A path that takes the turn `name` and then ends in `last`, segment by
segment: `lead` is the mark of an absolute path, and what stands in the gap
and behind `last` is idle. -/
structure EndsIn (p : Path) (lead inner : List Bytes) (name : Bytes) (gap : List Bytes)
    (last : Bytes) (trail : List Bytes) : Prop where
  lead_eq : lead = if p.isAbsolute then [[]] else []
  segments_eq : p.segments = lead ++ (inner ++ name :: (gap ++ last :: trail))
  name_counts : ¬ isIdle name
  gap_idle : ∀ segment ∈ gap, isIdle segment
  last_counts : ¬ isIdle last
  trail_idle : ∀ segment ∈ trail, isIdle segment

theorem not_isIdle_iff : ¬ isIdle name ↔ name ≠ [] ∧ name ≠ dot := by
  simp [isIdle]

theorem isIdle_of_dropped {segment : Bytes}
    (h : (decide (segment ≠ dot) && !segment.isEmpty) = false) :
    isIdle segment := by
  rw [Bool.and_eq_false_iff, decide_eq_false_iff_not, Bool.not_eq_false', List.isEmpty_iff] at h
  rcases h with hdot | hnil
  · simp [isIdle, Decidable.not_not.mp hdot]
  · simp [isIdle, hnil]

theorem exists_endsIn {front before : List Bytes} {last : Bytes}
    (hwords : p.words = front ++ [last]) (hlast : last ≠ dot)
    (hfront : front.filter (· ≠ dot) = before ++ [name]) :
    ∃ lead inner gap trail, p.EndsIn lead inner name gap last trail ∧
      inner.filter (fun s => decide (s ≠ dot) && !s.isEmpty) = before := by
  have hsegments := segments_eq p
  -- The empty segment before a leading slash is set apart first, since cutting never reaches it.
  generalize hlead : (if p.isAbsolute then [[]] else [] : List Bytes) = lead at hsegments
  generalize (if p.isAbsolute then p.segments.drop 1 else p.segments) = body at hsegments
  have hleadWords : lead.filter (!·.isEmpty) = [] := by
    rw [← hlead]
    split <;> rfl
  have hbodyWords : body.filter (!·.isEmpty) = front ++ [last] := by
    rw [← hwords, words, hsegments, List.filter_append, hleadWords, List.nil_append]
  obtain ⟨outer, trail, hbody, houter, htrail⟩ := exists_append_of_filter_eq hbodyWords
  have hboth : outer.filter (fun s => decide (s ≠ dot) && !s.isEmpty) = before ++ [name] := by
    rw [← hfront, ← houter, List.filter_filter]
  obtain ⟨inner, gap, houterEq, hinner, hgap⟩ := exists_append_of_filter_eq hboth
  have hmem : name ∈ before ++ [name] := by simp
  have hname := (List.mem_filter.mp (hboth ▸ hmem)).2
  have hlastNe : last ≠ [] := ne_nil_of_mem_words (p := p) (by simp [hwords])
  refine ⟨lead, inner, gap, trail, ⟨hlead.symm, ?_, ?_, ?_, ?_, ?_⟩, hinner⟩
  · rw [hsegments, hbody, houterEq, List.append_assoc, List.cons_append]
  · simp only [Bool.and_eq_true, decide_eq_true_eq, Bool.not_eq_true',
      List.isEmpty_eq_false_iff] at hname
    exact not_isIdle_iff.mpr hname.symm
  · exact fun segment hmem => isIdle_of_dropped (hgap segment hmem)
  · exact not_isIdle_iff.mpr ⟨hlastNe, hlast⟩
  · intro segment hmem
    have hempty := htrail segment hmem
    exact isIdle_of_dropped (by rw [hempty, Bool.and_false])

namespace EndsIn

variable {lead inner gap trail : List Bytes} {last : Bytes}

/-- The parent spells what stands up to the last turn but one. -/
theorem parent?_eq (h : p.EndsIn lead inner name gap last trail) :
    p.parent? = some ⟨[slash].intercalate (lead ++ (inner ++ [name]))⟩ := by
  have hbody : (if p.isAbsolute then p.segments.drop 1 else p.segments) =
      inner ++ name :: (gap ++ last :: trail) := by
    rw [h.segments_eq, h.lead_eq]
    split <;> rfl
  -- Cutting takes two steps: what trails the last turn, and then the gap before it.
  have hkept : trimIdle (!p.isAbsolute) (inner ++ name :: (gap ++ last :: trail)) =
      inner ++ name :: gap ++ [last] := by
    have hassoc : inner ++ name :: (gap ++ last :: trail) =
        (inner ++ name :: gap) ++ last :: trail := by simp
    rw [hassoc, trimIdle_append h.last_counts h.trail_idle]
  have habove : trimIdle (!p.isAbsolute) (inner ++ name :: gap) = inner ++ [name] :=
    trimIdle_append h.name_counts h.gap_idle _
  have hnonempty : (inner ++ name :: gap ++ [last]).isEmpty = false := by simp
  unfold parent?
  simp only [hbody, hkept, hnonempty, List.dropLast_concat, habove]
  rw [if_neg Bool.false_ne_true, h.lead_eq]
  split
  · rw [List.singleton_append, List.intercalate_cons_of_ne_nil (by simp)]
    rfl
  · rfl

theorem bytes_eq (h : p.EndsIn lead inner name gap last trail) :
    p.bytes = [slash].intercalate (lead ++ (inner ++ [name])) ++
      slash :: [slash].intercalate (gap ++ last :: trail) := by
  rw [← intercalate_append (by simp) (by simp), ← intercalate_segments p, h.segments_eq]
  simp only [List.append_assoc, List.cons_append, List.nil_append]

theorem words_parent (h : p.EndsIn lead inner name gap last trail) :
    words ⟨[slash].intercalate (lead ++ (inner ++ [name]))⟩ =
      inner.filter (!·.isEmpty) ++ [name] := by
  have hfree : ∀ segment ∈ lead ++ (inner ++ [name]), slash ∉ segment := by
    intro segment hmem
    apply slash_notMem_of_mem_segments (p := p)
    rw [h.segments_eq]
    simp only [List.mem_append, List.mem_cons, List.not_mem_nil, or_false] at hmem ⊢
    rcases hmem with hmem | hmem | hmem
    · exact Or.inl hmem
    · exact Or.inr (Or.inl hmem)
    · exact Or.inr (Or.inr (Or.inl hmem))
  have hlead : lead.filter (!·.isEmpty) = [] := by
    rw [h.lead_eq]
    split <;> rfl
  have hname : name.isEmpty = false :=
    List.isEmpty_eq_false_iff.mpr (not_isIdle_iff.mp h.name_counts).1
  rw [words, segments, List.splitOn_intercalate slash hfree (by simp), List.filter_append, hlead,
    List.filter_append, List.nil_append]
  simp [hname]

end EndsIn

/-- The parent of a path that takes at least two turns and does not end in
`.` takes all turns but the last. -/
theorem exists_parent?_eq_some {front before : List Bytes} {last : Bytes}
    (hwords : p.words = front ++ [last]) (hlast : last ≠ dot)
    (hfront : front.filter (· ≠ dot) = before ++ [name]) :
    ∃ q, p.parent? = some q ∧ q.isAbsolute = p.isAbsolute ∧
      (∃ front, q.words = front ++ [name] ∧ front.filter (· ≠ dot) = before) ∧
      ∃ rest, p.bytes = q.bytes ++ slash :: rest := by
  obtain ⟨lead, inner, gap, trail, hends, hinner⟩ := exists_endsIn hwords hlast hfront
  refine ⟨_, hends.parent?_eq, ?_, ⟨_, hends.words_parent, ?_⟩, _, hends.bytes_eq⟩
  · have hne : [slash].intercalate (lead ++ (inner ++ [name])) ≠ [] := by
      intro hnil
      have hempty := hends.words_parent
      rw [hnil] at hempty
      exact absurd hempty (by simp [words, segments])
    obtain ⟨b, bytes, hcons⟩ := List.exists_cons_of_ne_nil hne
    rw [isAbsolute, isAbsolute, hends.bytes_eq, hcons]
    rfl
  · rw [List.filter_filter]
    exact hinner

/-! ## Whatever the path -/

/-- `q` starts where `p` does and takes the first turns of `p`. -/
structure Begins (q p : Path) : Prop where
  isAbsolute_eq : q.isAbsolute = p.isAbsolute
  turns_prefix : q.turns <+: p.turns

theorem Begins.refl (p : Path) : p.Begins p := ⟨rfl, List.prefix_refl _⟩

theorem Begins.trans {r : Path} (h : r.Begins q) (h' : q.Begins p) : r.Begins p :=
  ⟨h.isAbsolute_eq.trans h'.isAbsolute_eq, h.turns_prefix.trans h'.turns_prefix⟩

theorem trimIdle_isPrefix (leading : Bool) (segments : List Bytes) :
    trimIdle leading segments <+: segments := by
  cases segments with
  | nil => exact List.prefix_refl _
  | cons first rest =>
      have hrest : (rest.reverse.dropWhile isIdle).reverse <+: rest := by
        rw [← List.reverse_suffix, List.reverse_reverse]
        exact List.dropWhile_suffix _
      simp only [trimIdle]
      split
      · exact List.nil_prefix
      · exact List.cons_prefix_cons.mpr ⟨rfl, hrest⟩

theorem intercalate_isPrefix {xs ys : List Bytes} (h : xs <+: ys) :
    [slash].intercalate xs <+: [slash].intercalate ys := by
  obtain ⟨rest, rfl⟩ := h
  by_cases hxs : xs = []
  · subst hxs
    exact List.nil_prefix
  by_cases hrest : rest = []
  · subst hrest
    exact ⟨[], by rw [List.append_nil, List.append_nil]⟩
  · rw [intercalate_append hxs hrest]
    exact List.prefix_append _ _

theorem words_intercalate {segments : List Bytes} (hfree : ∀ segment ∈ segments, slash ∉ segment) :
    words ⟨[slash].intercalate segments⟩ = segments.filter (!·.isEmpty) := by
  by_cases hne : segments = []
  · subst hne
    rfl
  · rw [words, Path.segments, List.splitOn_intercalate slash hfree hne]

theorem words_cons_slash (bytes : Bytes) : words ⟨slash :: bytes⟩ = words ⟨bytes⟩ := by
  rw [words, ← List.nil_append (slash :: bytes), segments_append_slash, List.filter_append]
  rfl

/-- The parent is spelled from some of the segments behind a slash that the path
begins with, up to one of them. -/
theorem exists_segments_of_parent? (h : p.parent? = some q) : ∃ above body : List Bytes,
    p.segments = (if p.isAbsolute then [[]] else []) ++ body ∧ above <+: body ∧
      q.bytes = (if p.isAbsolute then [slash] else []) ++ [slash].intercalate above := by
  unfold parent? at h
  simp only at h
  have hsegments := segments_eq p
  generalize (if p.isAbsolute then p.segments.drop 1 else p.segments) = body at hsegments h
  generalize hkept : trimIdle (!p.isAbsolute) body = kept at h
  split at h
  · cases h
  obtain rfl := Option.some.inj h
  have habove : trimIdle (!p.isAbsolute) kept.dropLast <+: body :=
    (trimIdle_isPrefix _ _).trans ((List.dropLast_prefix _).trans (hkept ▸ trimIdle_isPrefix _ _))
  refine ⟨_, body, hsegments, habove, ?_⟩
  split <;> rfl

theorem isAbsolute_of_parent? (h : p.parent? = some q) : q.isAbsolute = p.isAbsolute := by
  obtain ⟨above, body, hsegments, habove, hbytes⟩ := exists_segments_of_parent? h
  cases habs : p.isAbsolute with
  | true =>
      rw [habs, if_pos rfl] at hbytes
      rw [isAbsolute, hbytes]
      rfl
  | false =>
      rw [habs, if_neg Bool.false_ne_true, List.nil_append] at hsegments hbytes
      rw [Bool.eq_false_iff]
      -- A slash at the beginning of the parent would be one at that of the path.
      intro hslash
      rw [isAbsolute, hbytes, decide_eq_true_iff] at hslash
      obtain ⟨rest, hrest⟩ := intercalate_isPrefix (hsegments ▸ habove)
      rw [intercalate_segments] at hrest
      obtain ⟨bytes, hcons⟩ := List.head?_eq_some_iff.mp hslash
      rw [isAbsolute, ← hrest, hcons] at habs
      cases habs

theorem words_isPrefix_of_parent? (h : p.parent? = some q) : q.words <+: p.words := by
  obtain ⟨above, body, hsegments, habove, hbytes⟩ := exists_segments_of_parent? h
  have hfree : ∀ segment ∈ above, slash ∉ segment := by
    intro segment hmem
    apply slash_notMem_of_mem_segments (p := p)
    rw [hsegments]
    exact List.mem_append_right _ (habove.subset hmem)
  have hlead : (if p.isAbsolute then [[]] else [] : List Bytes).filter (!·.isEmpty) = [] := by
    split <;> rfl
  have hwords : q.words = above.filter (!·.isEmpty) := by
    rw [← words_intercalate hfree, show q = ⟨q.bytes⟩ from rfl, hbytes]
    split
    · exact words_cons_slash _
    · rw [List.nil_append]
  rw [hwords, words, hsegments, List.filter_append, hlead, List.nil_append]
  exact habove.filter _

/-- The parent of a path begins it. -/
theorem begins_of_parent? (h : p.parent? = some q) : q.Begins p := by
  refine ⟨isAbsolute_of_parent? h, ?_⟩
  rw [turns_eq, turns_eq]
  exact (words_isPrefix_of_parent? h).filter _

end Confinement.Path
