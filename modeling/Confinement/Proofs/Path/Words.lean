import Confinement.Path
import Confinement.Proofs.Text.Fields

/-!
# Words of a path

A walk reads a path as words, its segments without the empty ones, and a `.`
among them changes nothing but what may be asked of a directory.  What is left
without them are the turns of the path.  The components of a path are its
turns behind a mark that says where it starts, and its names are its turns
without `..`.

Joining and re-rooting append words (`words_join`, `words_foldl_child`), and
the parent of a path has the same turns but the last
(`exists_parent?_eq_some`).
-/

namespace Confinement.Path

variable {p q : Path} {name : Bytes}

/-- The segments of a path that are not empty. -/
def words (p : Path) : List Bytes := p.segments.filter (!·.isEmpty)

/-- The words of a path that lead somewhere. -/
def turns (p : Path) : List Bytes := p.words.filter (· ≠ dot)

/-- What can be the name of a directory entry. -/
structure IsName (name : Bytes) : Prop where
  ne_nil : name ≠ []
  ne_dot : name ≠ dot
  ne_dotdot : name ≠ dotdot
  slash_notMem : slash ∉ name

instance (name : Bytes) : Decidable (IsName name) :=
  decidable_of_iff (name ≠ [] ∧ name ≠ dot ∧ name ≠ dotdot ∧ slash ∉ name)
    ⟨fun ⟨a, b, c, d⟩ => ⟨a, b, c, d⟩, fun ⟨a, b, c, d⟩ => ⟨a, b, c, d⟩⟩

/-! ## Segments -/

theorem slash_notMem_of_mem_segments {l : Bytes} (h : l ∈ p.segments) : slash ∉ l :=
  notMem_of_mem_splitOn h

theorem segments_append_slash (xs ys : Bytes) :
    segments ⟨xs ++ slash :: ys⟩ = segments ⟨xs⟩ ++ segments ⟨ys⟩ :=
  List.splitOn_append_cons_self xs ys

/-- What follows a slash leaves the first segment as it is. -/
theorem head?_segments_append_slash (xs ys : Bytes) :
    (segments ⟨xs ++ slash :: ys⟩).head? = (segments ⟨xs⟩).head? := by
  obtain ⟨first, rest, hsplit⟩ := List.exists_cons_of_ne_nil (List.splitOn_ne_nil slash xs)
  have hsegments : segments ⟨xs⟩ = first :: rest := hsplit
  rw [segments_append_slash, hsegments]
  rfl

theorem segments_of_notMem {xs : Bytes} (h : slash ∉ xs) : segments ⟨xs⟩ = [xs] :=
  List.splitOn_eq_singleton h

theorem intercalate_segments (p : Path) : [slash].intercalate p.segments = p.bytes :=
  List.intercalate_splitOn slash

theorem intercalate_append {ls ms : List Bytes} (hls : ls ≠ []) (hms : ms ≠ []) :
    [slash].intercalate (ls ++ ms) =
      [slash].intercalate ls ++ slash :: [slash].intercalate ms := by
  induction ls with
  | nil => exact absurd rfl hls
  | cons l ls ih =>
      by_cases hnil : ls = []
      · subst hnil
        rw [List.singleton_append, List.intercalate_cons_of_ne_nil hms,
          List.intercalate_singleton]
        simp only [List.append_assoc, List.singleton_append]
      · have happ : ls ++ ms ≠ [] := by simp [hnil]
        rw [List.cons_append, List.intercalate_cons_of_ne_nil happ, ih hnil,
          List.intercalate_cons_of_ne_nil hnil]
        simp only [List.append_assoc]

theorem mem_of_mem_segments {l : Bytes} {x : UInt8} (hl : l ∈ p.segments) (hx : x ∈ l) :
    x ∈ p.bytes :=
  intercalate_segments p ▸ mem_intercalate hl hx

theorem exists_of_mem_intercalate {ls : List Bytes} {x : UInt8}
    (hx : x ∈ [slash].intercalate ls) : x = slash ∨ ∃ l ∈ ls, x ∈ l := by
  induction ls with
  | nil => cases hx
  | cons m ls ih =>
      by_cases hnil : ls = []
      · subst hnil
        exact Or.inr ⟨m, List.mem_cons_self, by simpa using hx⟩
      · rw [List.intercalate_cons_of_ne_nil hnil, List.append_assoc, List.mem_append,
          List.singleton_append, List.mem_cons] at hx
        rcases hx with hx | rfl | hx
        · exact Or.inr ⟨m, List.mem_cons_self, hx⟩
        · exact Or.inl rfl
        · exact (ih hx).imp_right fun ⟨l, hl, hxl⟩ => ⟨l, List.mem_cons_of_mem _ hl, hxl⟩

/-- Each byte of a path is a slash or stands in one of its words. -/
theorem exists_of_mem_bytes {x : UInt8} (hx : x ∈ p.bytes) :
    x = slash ∨ ∃ word ∈ p.words, x ∈ word := by
  rw [← intercalate_segments p] at hx
  refine (exists_of_mem_intercalate hx).imp_right fun ⟨segment, hsegment, hin⟩ => ?_
  exact ⟨segment, List.mem_filter.mpr ⟨hsegment, by cases segment <;> simp_all⟩, hin⟩

theorem bytes_ne_nil_of_words (h : p.words ≠ []) : p.bytes ≠ [] := by
  rintro hnil
  apply h
  rw [words, segments, hnil]
  rfl

/-! ## Joining -/

theorem not_isAbsolute_of_notMem (h : slash ∉ name) : ¬ (Path.mk name).isAbsolute := by
  intro habs
  rw [isAbsolute, decide_eq_true_iff] at habs
  exact h (List.mem_of_head? habs)

theorem IsName.not_isAbsolute (h : IsName name) : ¬ (Path.mk name).isAbsolute :=
  not_isAbsolute_of_notMem h.slash_notMem

theorem words_of_notMem (h : slash ∉ name) (hne : name ≠ []) : words ⟨name⟩ = [name] := by
  rw [words, segments_of_notMem h]
  simp [hne]

theorem IsName.words_eq (h : IsName name) : words ⟨name⟩ = [name] :=
  words_of_notMem h.slash_notMem h.ne_nil

theorem IsName.endsWithSlash_eq (h : IsName name) : endsWithSlash ⟨name⟩ = false := by
  rw [endsWithSlash, decide_eq_false_iff_not]
  intro hlast
  exact h.slash_notMem (List.mem_of_getLast? hlast)

theorem exists_of_endsWithSlash (h : p.endsWithSlash) : ∃ xs, p.bytes = xs ++ [slash] := by
  rw [endsWithSlash, decide_eq_true_iff] at h
  exact List.getLast?_eq_some_iff.mp h

/-- A join in which the second path counts writes at most one slash between
the two. -/
theorem exists_join_bytes_eq (p : Path) (hq : ¬ q.isAbsolute) :
    ∃ between, (between = [] ∨ between = [slash]) ∧
      (p.join q).bytes = p.bytes ++ between ++ q.bytes := by
  unfold join
  rw [if_neg hq]
  split
  · exact ⟨[], Or.inl rfl, by simp⟩
  · exact ⟨[slash], Or.inr rfl, by simp⟩

theorem words_join (p : Path) (hq : ¬ q.isAbsolute) : (p.join q).words = p.words ++ q.words := by
  unfold join
  rw [if_neg hq]
  split
  · rename_i hp
    rw [Bool.or_eq_true] at hp
    rcases hp with hempty | hslash
    · have hbytes : p.bytes = [] := List.isEmpty_iff.mp hempty
      simp [words, segments, hbytes]
    · -- The slash that is there already does the work of the one that would be written.
      obtain ⟨xs, hxs⟩ := exists_of_endsWithSlash hslash
      have hp : p = ⟨xs ++ slash :: []⟩ := congrArg Path.mk hxs
      have hjoin : (⟨p.bytes ++ q.bytes⟩ : Path) = ⟨xs ++ slash :: q.bytes⟩ := by
        rw [hxs, List.append_assoc, List.singleton_append]
      rw [hjoin, words, segments_append_slash, words, hp, segments_append_slash, words]
      simp [segments]
  · rw [words, segments_append_slash, List.filter_append]
    rfl

theorem endsWithSlash_join (p : Path) (hq : ¬ q.isAbsolute) (hne : q.bytes ≠ []) :
    (p.join q).endsWithSlash = q.endsWithSlash := by
  obtain ⟨between, -, hbytes⟩ := exists_join_bytes_eq p hq
  obtain ⟨b, hb⟩ := Option.ne_none_iff_exists'.mp fun hnone =>
    hne (List.getLast?_eq_none_iff.mp hnone)
  simp [endsWithSlash, hbytes, hb]

theorem isAbsolute_join (p : Path) (hq : ¬ q.isAbsolute) :
    (p.join q).isAbsolute = p.isAbsolute := by
  unfold join
  rw [if_neg hq]
  -- Joined to the empty path the second path is left alone, which is why it must not be absolute.
  cases hp : p.bytes with
  | nil =>
      have hq : q.isAbsolute = false := Bool.eq_false_iff.mpr hq
      have hleft : (Path.mk ([] ++ q.bytes)).isAbsolute = false := hq
      simp [isEmpty, isAbsolute, hp] at hleft ⊢
      exact hleft
  | cons b bs => split <;> simp [isAbsolute, hp]

/-- A join with the empty path puts a slash at the end. -/
theorem endsWithSlash_join_nil (hp : p.bytes ≠ []) : (p.join ⟨[]⟩).endsWithSlash := by
  have hnil : ¬ (Path.mk []).isAbsolute := by decide
  unfold join
  rw [if_neg hnil]
  have hempty : p.isEmpty = false := by simpa [isEmpty] using hp
  rw [hempty, Bool.false_or]
  split
  · rename_i hslash
    simpa [endsWithSlash] using hslash
  · simp [endsWithSlash]

theorem words_join_nil (p : Path) : (p.join ⟨[]⟩).words = p.words := by
  have hnil : ¬ (Path.mk []).isAbsolute := by decide
  rw [words_join p hnil]
  exact List.append_nil _

theorem isAbsolute_join_nil (p : Path) : (p.join ⟨[]⟩).isAbsolute = p.isAbsolute :=
  isAbsolute_join p (by decide)

theorem length_join_le (p : Path) (hq : ¬ q.isAbsolute) :
    p.length + q.length ≤ (p.join q).length := by
  obtain ⟨between, -, hbytes⟩ := exists_join_bytes_eq p hq
  simp only [length, hbytes, List.length_append]
  omega

theorem words_child (p : Path) (h : IsName name) : (p.child name).words = p.words ++ [name] := by
  rw [child, words_join p h.not_isAbsolute, h.words_eq]

theorem endsWithSlash_child (p : Path) (h : IsName name) :
    (p.child name).endsWithSlash = false := by
  rw [child, endsWithSlash_join p h.not_isAbsolute h.ne_nil, h.endsWithSlash_eq]

theorem isAbsolute_child (p : Path) (h : IsName name) :
    (p.child name).isAbsolute = p.isAbsolute :=
  isAbsolute_join p h.not_isAbsolute

/-- The path of an entry is longer than that of its directory. -/
theorem length_child_lt (p : Path) (h : IsName name) : p.length < (p.child name).length := by
  have hle := length_join_le p h.not_isAbsolute
  have hpos : 0 < (Path.mk name).length := List.length_pos_iff.mpr h.ne_nil
  rw [child]
  omega

/-- Names appended one after the other. -/
theorem words_foldl_child (p : Path) {names : List Bytes} (h : ∀ name ∈ names, IsName name) :
    (names.foldl child p).words = p.words ++ names := by
  induction names generalizing p with
  | nil => simp
  | cons name names ih =>
      rw [List.foldl_cons, ih _ fun n hn => h n (List.mem_cons_of_mem _ hn),
        words_child p (h name List.mem_cons_self)]
      simp

theorem isAbsolute_foldl_child (p : Path) {names : List Bytes} (h : ∀ name ∈ names, IsName name) :
    (names.foldl child p).isAbsolute = p.isAbsolute := by
  induction names generalizing p with
  | nil => rfl
  | cons name names ih =>
      rw [List.foldl_cons, ih _ fun n hn => h n (List.mem_cons_of_mem _ hn),
        isAbsolute_child p (h name List.mem_cons_self)]

theorem endsWithSlash_foldl_child {names : List Bytes} (hp : p.endsWithSlash = false)
    (h : ∀ name ∈ names, IsName name) : (names.foldl child p).endsWithSlash = false := by
  induction names generalizing p with
  | nil => exact hp
  | cons name names ih =>
      exact ih (endsWithSlash_child p (h name List.mem_cons_self))
        fun n hn => h n (List.mem_cons_of_mem _ hn)

/-! ## Turns, components and names -/

theorem turns_join (p : Path) (hq : ¬ q.isAbsolute) : (p.join q).turns = p.turns ++ q.turns := by
  rw [turns, words_join p hq, List.filter_append]
  rfl

theorem IsName.turns_eq (h : IsName name) : turns ⟨name⟩ = [name] := by
  rw [turns, h.words_eq]
  simp [h.ne_dot]

theorem turns_child (p : Path) (h : IsName name) : (p.child name).turns = p.turns ++ [name] := by
  rw [child, turns_join p h.not_isAbsolute, h.turns_eq]

theorem turns_eq (p : Path) : p.turns = p.words.filter (· ≠ dot) := rfl

/-- Where the last word is a turn, the words before it take the turns before
it. -/
theorem filter_eq_of_turns {front before : List Bytes} {last : Bytes}
    (hwords : p.words = front ++ [last]) (hlast : last ≠ dot)
    (hturns : p.turns = before ++ [name]) :
    last = name ∧ front.filter (· ≠ dot) = before := by
  rw [turns_eq, hwords, List.filter_append, List.filter_cons_of_pos (by simpa using hlast),
    List.filter_nil] at hturns
  obtain ⟨hfront, hname⟩ := List.append_inj' hturns rfl
  exact ⟨List.singleton_inj.mp hname, hfront⟩

/-- What a turn stands for. -/
def Component.ofTurn (turn : Bytes) : Component :=
  if turn = dotdot then .parent else .normal turn

/-- The turn that a component stands for. -/
def Component.turn? : Component → Option Bytes
  | .parent => some dotdot
  | .normal name => some name
  | _ => none

theorem Component.turn?_ofTurn (turn : Bytes) : (Component.ofTurn turn).turn? = some turn := by
  unfold Component.ofTurn
  split
  · rename_i hturn
    rw [hturn]
    rfl
  · rfl

theorem Component.ofTurn_ne_root (turn : Bytes) : Component.ofTurn turn ≠ .root := by
  unfold Component.ofTurn
  split <;> simp

/-- The mark that says where a path starts. -/
def origin (p : Path) : List Component :=
  if p.isAbsolute then [.root] else if p.segments.head? = some dot then [.here] else []

theorem filterMap_component?_eq (segments : List Bytes) :
    segments.filterMap component? =
      ((segments.filter (!·.isEmpty)).filter (· ≠ dot)).map Component.ofTurn := by
  induction segments with
  | nil => rfl
  | cons segment segments ih =>
      by_cases hnil : segment = []
      · subst hnil
        simpa [component?] using ih
      · by_cases hdot : segment = dot
        · subst hdot
          simpa [component?] using ih
        · have hone : component? segment = some (.ofTurn segment) := by
            unfold component? Component.ofTurn
            rw [if_neg (by simp [hnil, hdot])]
            split <;> rfl
          rw [List.filterMap_cons_some hone, ih]
          simp [hnil, hdot]

theorem components_eq (p : Path) : p.components = p.origin ++ p.turns.map Component.ofTurn := by
  unfold components origin
  rw [filterMap_component?_eq]
  split
  · rfl
  · split <;> rfl

theorem names_eq (p : Path) : p.names = p.turns.filter (· ≠ dotdot) := by
  have horigin : p.origin.filterMap Component.name? = [] := by
    unfold origin
    split
    · rfl
    · split <;> rfl
  rw [names, components_eq, List.filterMap_append, horigin, List.nil_append, List.filterMap_map]
  induction p.turns with
  | nil => rfl
  | cons turn turns ih =>
      by_cases hturn : turn = dotdot
      · subst hturn
        simpa [Component.ofTurn, Component.name?] using ih
      · simpa [Component.ofTurn, Component.name?, hturn] using ih

/-- The names of a path are its normal components. -/
theorem map_normal_names (p : Path) :
    p.names.map .normal = p.components.filter (·.name?.isSome) := by
  unfold names
  induction p.components with
  | nil => rfl
  | cons c cs ih =>
      cases c with
      | normal name => exact congrArg (.normal name :: ·) ih
      | root | here | parent => exact ih

/-- A path without a `..` among its components takes none. -/
theorem dotdot_notMem_turns (h : .parent ∉ p.components) : dotdot ∉ p.turns := by
  intro hmem
  apply h
  rw [components_eq]
  exact List.mem_append_right _ (List.mem_map.mpr ⟨dotdot, hmem, if_pos rfl⟩)

theorem isName_of_mem_names (h : name ∈ p.names) : IsName name := by
  rw [names_eq, turns, words] at h
  simp only [List.mem_filter, decide_eq_true_eq, Bool.not_eq_true', List.isEmpty_eq_false_iff] at h
  obtain ⟨⟨⟨hmem, hnil⟩, hdot⟩, hdotdot⟩ := h
  exact ⟨hnil, hdot, hdotdot, slash_notMem_of_mem_segments hmem⟩

theorem mem_words_of_mem_names (h : name ∈ p.names) : name ∈ p.words := by
  rw [names_eq] at h
  exact (List.mem_filter.mp (List.mem_filter.mp h).1).1

theorem isAbsolute_iff_components (p : Path) : p.isAbsolute ↔ .root ∈ p.components := by
  have hturns : .root ∉ p.turns.map Component.ofTurn := by
    rw [List.mem_map]
    rintro ⟨turn, -, hturn⟩
    exact Component.ofTurn_ne_root turn hturn
  rw [components_eq, List.mem_append, origin]
  split
  · rename_i habs
    exact iff_of_true habs (Or.inl List.mem_cons_self)
  · rename_i habs
    apply iff_of_false habs
    rintro (horigin | hmem)
    · split at horigin <;> simp at horigin
    · exact hturns hmem

theorem turns_eq_filterMap (p : Path) : p.turns = p.components.filterMap Component.turn? := by
  have horigin : p.origin.filterMap Component.turn? = [] := by
    unfold origin
    split
    · rfl
    · split <;> rfl
  have hturn : Component.turn? ∘ Component.ofTurn = some := funext Component.turn?_ofTurn
  rw [components_eq, List.filterMap_append, horigin, List.nil_append, List.filterMap_map, hturn,
    List.filterMap_some]

theorem Same.isAbsolute_eq (h : p.Same q) : p.isAbsolute = q.isAbsolute := by
  have hsame : p.components = q.components := h
  rw [Bool.eq_iff_iff, isAbsolute_iff_components, isAbsolute_iff_components, hsame]

theorem Same.turns_eq (h : p.Same q) : p.turns = q.turns := by
  have hsame : p.components = q.components := h
  rw [turns_eq_filterMap, turns_eq_filterMap, hsame]

/-- What names are appended to stays in front. -/
theorem exists_foldl_child_bytes_eq (p : Path) {names : List Bytes}
    (h : ∀ name ∈ names, IsName name) :
    ∃ rest, (names.foldl child p).bytes = p.bytes ++ rest := by
  induction names generalizing p with
  | nil => exact ⟨[], (List.append_nil _).symm⟩
  | cons name names ih =>
      obtain ⟨rest, hrest⟩ := ih (p.child name) fun n hn => h n (List.mem_cons_of_mem _ hn)
      obtain ⟨between, -, hbytes⟩ :=
        exists_join_bytes_eq p (h name List.mem_cons_self).not_isAbsolute
      refine ⟨between ++ name ++ rest, ?_⟩
      rw [List.foldl_cons, hrest, child, hbytes]
      simp only [List.append_assoc]

/-! ## Re-rooting -/

theorem turns_foldl_child (p : Path) {names : List Bytes} (h : ∀ name ∈ names, IsName name) :
    (names.foldl child p).turns = p.turns ++ names := by
  rw [turns, words_foldl_child p h, List.filter_append, turns]
  congr 1
  rw [List.filter_eq_self]
  intro name hname
  simpa using (h name hname).ne_dot

theorem names_foldl_child (p : Path) {names : List Bytes} (h : ∀ name ∈ names, IsName name) :
    (names.foldl child p).names = p.names ++ names := by
  rw [names_eq, turns_foldl_child p h, List.filter_append, ← names_eq]
  congr 1
  rw [List.filter_eq_self]
  intro name hname
  simpa using (h name hname).ne_dotdot

theorem turns_reroot (p q : Path) : (p.reroot q).turns = p.turns ++ q.names :=
  turns_foldl_child p fun _ => isName_of_mem_names

theorem words_reroot (p q : Path) : (p.reroot q).words = p.words ++ q.names :=
  words_foldl_child p fun _ => isName_of_mem_names

theorem names_reroot (p q : Path) : (p.reroot q).names = p.names ++ q.names :=
  names_foldl_child p fun _ => isName_of_mem_names

theorem isAbsolute_reroot (p q : Path) : (p.reroot q).isAbsolute = p.isAbsolute :=
  isAbsolute_foldl_child p fun _ => isName_of_mem_names

theorem endsWithSlash_reroot (q : Path) (h : p.endsWithSlash = false) :
    (p.reroot q).endsWithSlash = false :=
  endsWithSlash_foldl_child h fun _ => isName_of_mem_names

/-- Joining a name leaves a path where it starts. -/
theorem origin_child (p : Path) (h : IsName name) : (p.child name).origin = p.origin := by
  -- Where a path starts depends on its first segment, and a name after a path leaves that one
  -- alone.
  have hsegments : (p.child name).segments.head? = some dot ↔ p.segments.head? = some dot := by
    have hname : segments ⟨name⟩ = [name] := segments_of_notMem h.slash_notMem
    unfold child join
    rw [if_neg h.not_isAbsolute]
    split
    · rename_i hp
      rw [Bool.or_eq_true] at hp
      rcases hp with hempty | hslash
      · have hbytes : p.bytes = [] := List.isEmpty_iff.mp hempty
        have hp : p.segments = [[]] := by rw [segments, hbytes]; rfl
        rw [hbytes, List.nil_append, hname, hp, List.head?_cons, List.head?_cons, Option.some_inj,
          Option.some_inj]
        exact iff_of_false h.ne_dot (by decide)
      · obtain ⟨xs, hxs⟩ := exists_of_endsWithSlash hslash
        have hp : p = ⟨xs ++ slash :: []⟩ := congrArg Path.mk hxs
        have hjoin : (⟨p.bytes ++ name⟩ : Path) = ⟨xs ++ slash :: name⟩ := by
          rw [hxs, List.append_assoc, List.singleton_append]
        rw [hjoin, hp, head?_segments_append_slash, head?_segments_append_slash]
    · rw [head?_segments_append_slash]
  unfold origin
  rw [isAbsolute_child p h]
  simp only [hsegments]

theorem origin_foldl_child (p : Path) {names : List Bytes} (h : ∀ name ∈ names, IsName name) :
    (names.foldl child p).origin = p.origin := by
  induction names generalizing p with
  | nil => rfl
  | cons name names ih =>
      rw [List.foldl_cons, ih _ fun n hn => h n (List.mem_cons_of_mem _ hn),
        origin_child p (h name List.mem_cons_self)]

theorem components_foldl_child (p : Path) {names : List Bytes} (h : ∀ name ∈ names, IsName name) :
    (names.foldl child p).components = p.components ++ names.map Component.normal := by
  have hnormal : names.map Component.ofTurn = names.map Component.normal :=
    List.map_congr_left fun name hname => by rw [Component.ofTurn, if_neg (h name hname).ne_dotdot]
  rw [components_eq, components_eq, origin_foldl_child p h, turns_foldl_child p h, List.map_append,
    hnormal, List.append_assoc]

theorem components_child (p : Path) (h : IsName name) :
    (p.child name).components = p.components ++ [.normal name] :=
  components_foldl_child p fun _ hname => List.mem_singleton.mp hname ▸ h

/-- What is re-rooted has the components of the directory and then its own
names. -/
theorem components_reroot (p q : Path) :
    (p.reroot q).components = p.components ++ q.names.map Component.normal :=
  components_foldl_child p fun _ => isName_of_mem_names

/-- What is re-rooted twice stands below both. -/
theorem reroot_reroot (p q r : Path) : (p.reroot q).reroot r = p.reroot (q.reroot r) := by
  rw [reroot, reroot, reroot, names_reroot, List.foldl_append]

end Confinement.Path
