import Confinement.Proofs.FileSystem.Ladder
import Confinement.Proofs.FileSystem.Reach
import Confinement.Staging

/-!
# Where a staging pass takes place

The staging root of a pass is to be made by names down from a directory that
is there, its `Site`.  A pass that changes anything has one (`exists_unmade`):
the root is walked as far as it leads, and what is left of it is missing.
-/

namespace Confinement

open FileSystem
open Node (IsEntryName)

namespace Stage

variable {fs fs' : FileSystem} {stage : Stage} {root p : Path} {r b : Location} {K : List Bytes}
  {name : Bytes} {mode : Mode} {es : Entries}

/-! ## Where a directory is copied -/

/-- The path under which a search directory is copied. -/
def copyPath (s : Stage) (p : Path) : Path := (s.location p).join ⟨[]⟩

theorem copyPath_words (s : Stage) (p : Path) : (s.copyPath p).words = s.root.words ++ p.names :=
  calc (s.copyPath p).words = (s.location p).words := Path.words_join_nil _
    _ = s.root.words ++ p.names := Path.words_reroot s.root p

theorem copyPath_turns (s : Stage) (p : Path) : (s.copyPath p).turns = s.root.turns ++ p.names :=
  calc (s.copyPath p).turns = (s.location p).turns := by
        rw [Path.turns_eq, copyPath, Path.words_join_nil, ← Path.turns_eq]
    _ = s.root.turns ++ p.names := Path.turns_reroot s.root p

theorem copyPath_names (s : Stage) (p : Path) : (s.copyPath p).names = s.root.names ++ p.names :=
  calc (s.copyPath p).names = (s.location p).names := by
        rw [Path.names_eq, Path.names_eq, copyPath_turns, location, Path.turns_reroot]
    _ = s.root.names ++ p.names := Path.names_reroot s.root p

theorem copyPath_isAbsolute (s : Stage) (p : Path) :
    (s.copyPath p).isAbsolute = s.root.isAbsolute := by
  rw [copyPath, Path.isAbsolute_join_nil, location, Path.isAbsolute_reroot]

theorem exists_copyPath_bytes_eq (s : Stage) (p : Path) :
    ∃ rest, (s.copyPath p).bytes = s.root.bytes ++ rest := by
  obtain ⟨rest, hrest⟩ := Path.exists_foldl_child_bytes_eq s.root
    fun name (h : name ∈ p.names) => Path.isName_of_mem_names h
  obtain ⟨between, -, hbytes⟩ := Path.exists_join_bytes_eq (s.location p) (q := ⟨[]⟩) (by decide)
  refine ⟨rest ++ between, ?_⟩
  rw [copyPath, hbytes, location, Path.reroot, hrest]
  simp only [List.append_assoc, List.append_nil]

theorem copyPath_ne_nil (hroot : stage.root.bytes ≠ []) (p : Path) :
    (stage.copyPath p).bytes ≠ [] := by
  obtain ⟨rest, hrest⟩ := exists_copyPath_bytes_eq stage p
  rw [hrest]
  exact List.append_ne_nil_of_left_ne_nil hroot _

theorem location_ne_nil (hroot : stage.root.bytes ≠ []) (p : Path) :
    (stage.location p).bytes ≠ [] := by
  obtain ⟨rest, hrest⟩ := Path.exists_foldl_child_bytes_eq stage.root
    fun name (h : name ∈ p.names) => Path.isName_of_mem_names h
  rw [location, Path.reroot, hrest]
  exact List.append_ne_nil_of_left_ne_nil hroot _

theorem endsWithSlash_copyPath (hroot : stage.root.bytes ≠ []) (p : Path) :
    (stage.copyPath p).endsWithSlash :=
  Path.endsWithSlash_join_nil (location_ne_nil hroot p)

theorem copyPath_last (p : Path)
    (h : ∃ front last, stage.root.words = front ++ [last] ∧ last ≠ Path.dot) :
    ∃ front last, (stage.copyPath p).words = front ++ [last] ∧ last ≠ Path.dot := by
  rcases List.eq_nil_or_concat' p.names with hnil | ⟨before, last, heq⟩
  · obtain ⟨front, last, hwords, hdot⟩ := h
    exact ⟨front, last, by rw [copyPath_words, hnil, List.append_nil, hwords], hdot⟩
  · refine ⟨stage.root.words ++ before, last, ?_, ?_⟩
    · rw [copyPath_words, heq, List.append_assoc]
    · exact (Path.isName_of_mem_names (p := p) (by rw [heq]; simp)).ne_dot

/-! ## Sites -/

/-- The staging root is led to by a walk to the directory `b` and from there
by the names `K`, where no link stands. -/
structure Site (fs : FileSystem) (root : Path) (b : Location) (K : List Bytes) : Prop where
  lead : ∃ lead, root.turns = lead ++ K ∧ ∃ n ≤ linkLimit, fs.Walk n (fs.start root) lead b
  last : ∃ front last, root.words = front ++ [last] ∧ last ≠ Path.dot
  directory : ∃ mode, fs.tree.look b = some (.directory mode)
  entryNames : ∀ key ∈ K, IsEntryName key
  clear : fs.Clear b K

theorem Site.bytes_ne_nil (h : Site fs root b K) : root.bytes ≠ [] := by
  obtain ⟨front, last, hwords, -⟩ := h.last
  apply Path.bytes_ne_nil_of_words
  rw [hwords]
  simp

/-- From the site a copy descends by the staging names and its own. -/
theorem Site.descends {above : List Bytes} (h : Site fs stage.root b K)
    (hfits : (stage.copyPath p).Fits) (hnames : ∀ key ∈ p.names, IsEntryName key)
    (hclear : fs.Clear b (K ++ p.names)) (hsplit : K ++ p.names = above ++ [name]) :
    fs.Descends (stage.copyPath p) b above name := by
  obtain ⟨lead, hlead, n, hn, hwalk⟩ := h.lead
  have hturns : (stage.copyPath p).turns = lead ++ above ++ [name] := by
    rw [copyPath_turns, hlead, List.append_assoc, hsplit, List.append_assoc]
  obtain ⟨front, last, hwords, hdot⟩ := copyPath_last p h.last
  obtain ⟨rfl, hfront⟩ := Path.filter_eq_of_turns hwords hdot hturns
  refine ⟨hfits, ⟨front, lead, hwords, hfront, n, hn, ?_⟩, ?_, ?_⟩
  · rwa [start, copyPath_isAbsolute]
  · rw [← hsplit]
    intro key hkey
    rcases List.mem_append.mp hkey with hkey | hkey
    · exact h.entryNames key hkey
    · exact hnames key hkey
  · rwa [← hsplit]

theorem Site.mono (h : Site fs root b K) (hkeeps : Keeps fs fs') (hclear : fs'.Clear b K) :
    Site fs' root b K := by
  obtain ⟨lead, hlead, n, hn, hwalk⟩ := h.lead
  obtain ⟨mode, hmode⟩ := h.directory
  refine ⟨⟨lead, hlead, n, hn, ?_⟩, h.last, ⟨mode, hkeeps.look _ _ hmode⟩, h.entryNames, hclear⟩
  rw [hkeeps.start_eq]
  exact hwalk.mono hkeeps

/-- Where names are appended to a path, the last word is one of them. -/
theorem exists_last_of_names (p : Path) {q : Path} (hne : q.names ≠ []) :
    ∃ front last, (p.reroot q).words = front ++ [last] ∧ last ≠ Path.dot := by
  obtain ⟨before, last, heq⟩ := (List.eq_nil_or_concat' q.names).resolve_left hne
  refine ⟨p.words ++ before, last, by rw [Path.words_reroot, heq, List.append_assoc], ?_⟩
  exact (Path.isName_of_mem_names (p := q) (by rw [heq]; simp)).ne_dot

theorem words_reroot_ne_nil (p : Path) {q : Path} (hne : q.names ≠ []) :
    (p.reroot q).words ≠ [] := by
  rw [Path.words_reroot]
  exact List.append_ne_nil_of_right_ne_nil _ hne

theorem endsWithSlash_reroot_of_names (p : Path) {q : Path} (hne : q.names ≠ []) :
    (p.reroot q).endsWithSlash = false := by
  obtain ⟨before, last, heq⟩ := (List.eq_nil_or_concat' q.names).resolve_left hne
  have hlast : Path.IsName last := Path.isName_of_mem_names (p := q) (by rw [heq]; simp)
  rw [Path.reroot, heq, List.foldl_concat]
  exact Path.endsWithSlash_child _ hlast

/-- Where a copy is, the staging root is. -/
theorem isDirectory_root (hroot : stage.root.bytes ≠ [])
    (hdir : fs.isDirectory (stage.copyPath p)) :
    fs.isDirectory stage.root := by
  obtain ⟨l, mode, es, hfind⟩ := isDirectory_iff.mp hdir
  obtain ⟨hfits, ⟨n, hn, hwalk⟩, -, hslash⟩ := find_true_eq_ok_iff.mp hfind
  rw [copyPath_words, start, copyPath_isAbsolute] at hwalk
  obtain ⟨n₁, n₂, x, rfl, hleft, hright⟩ := hwalk.split
  have hx : fs.Searchable x := hright.searchable (hslash (endsWithSlash_copyPath hroot p))
  obtain ⟨mode', hmode, -⟩ := id hx
  obtain ⟨rest, hrest⟩ := exists_copyPath_bytes_eq stage p
  exact isDirectory_of_leads (hfits.of_bytes_eq hroot hrest)
    ⟨n₁, by omega, hleft⟩ hmode fun _ => hx

/-! ## Staging roots that are missing -/

/-- The staging root is led to by a walk to the directory `b` and from there
by the names `K`, the first of which is missing. -/
structure Unmade (fs : FileSystem) (root : Path) (b : Location) (K : List Bytes) : Prop where
  lead : ∃ lead, root.turns = lead ++ K ∧ ∃ n ≤ linkLimit, fs.Walk n (fs.start root) lead b
  last : ∃ front last, root.words = front ++ [last] ∧ last ≠ Path.dot
  directory : ∃ mode, fs.tree.look b = some (.directory mode)
  isName : ∀ key ∈ K, Path.IsName key
  free : ∃ first rest, K = first :: rest ∧ fs.tree.look (b ++ [first]) = none

namespace Unmade

theorem ne_nil (h : Unmade fs root b K) : K ≠ [] := by
  obtain ⟨first, rest, rfl, -⟩ := h.free
  exact List.cons_ne_nil first rest

theorem bytes_ne_nil (h : Unmade fs root b K) : root.bytes ≠ [] := by
  obtain ⟨front, last, hwords, -⟩ := h.last
  apply Path.bytes_ne_nil_of_words
  rw [hwords]
  exact List.append_ne_nil_of_right_ne_nil _ (List.cons_ne_nil _ _)

theorem clear (h : Unmade fs root b K) : fs.Clear b K := by
  obtain ⟨first, rest, rfl, hfree⟩ := h.free
  exact clear_of_free hfree rest

theorem look_eq_none (h : Unmade fs root b K) {before names : List Bytes}
    (hbefore : before <+: K ++ names) (hne : before ≠ []) : fs.tree.look (b ++ before) = none := by
  obtain ⟨first, rest, rfl, hfree⟩ := h.free
  rcases List.prefix_cons_iff.mp hbefore with rfl | ⟨more, rfl, -⟩
  · exact absurd rfl hne
  · exact look_cons_eq_none hfree more

theorem look_root (h : Unmade fs root b K) : fs.tree.look (b ++ K) = none :=
  h.look_eq_none (List.prefix_append K []) h.ne_nil

/-- A directory that is there and does not contain `b` contains nothing that is
made from there on. -/
theorem not_prefix_place (h : Unmade fs root b K) (hl : (fs.tree.look r).isSome)
    (houtside : ¬ r <+: b) (names : List Bytes) : ¬ r <+: b ++ (K ++ names) := by
  intro hplace
  rcases List.prefix_or_prefix_of_prefix hplace (List.prefix_append b _) with hin | ⟨before, rfl⟩
  · exact houtside hin
  · rw [List.prefix_append_right_inj] at hplace
    have hne : before ≠ [] := by
      rintro rfl
      rw [List.append_nil] at houtside
      exact houtside (List.prefix_refl b)
    rw [h.look_eq_none hplace hne] at hl
    cases hl

theorem mem_names (h : Unmade fs root b K) {key : Bytes} (hkey : key ∈ K) : key ∈ root.names := by
  obtain ⟨lead, hlead, -⟩ := h.lead
  rw [Path.names_eq, hlead, List.filter_append]
  exact List.mem_append_right _
    (List.mem_filter.mpr ⟨hkey, by simpa using (h.isName key hkey).ne_dotdot⟩)

theorem site (h : Unmade fs root b K) (hnames : ∀ key ∈ K, IsEntryName key) : Site fs root b K :=
  ⟨h.lead, h.last, h.directory, hnames, h.clear⟩

end Unmade

/-- Where the names of the staging root come to one that is missing, it is to
be made from there on. -/
theorem unmade_of_free {n : Nat} {before more : List Bytes} (hjail : stage.jailRoot.Fits)
    (hroot : stage.root.Fits) (hsplit : stage.staging.names = before ++ name :: more)
    (hn : n ≤ linkLimit)
    (hwalk : fs.Walk n (fs.start stage.jailRoot) (stage.jailRoot.words ++ before) b)
    (hb : fs.Searchable b) (hfree : fs.tree.look (b ++ [name]) = none) :
    fs.reach? stage.jailRoot stage.staging.names = some b ∧
      Unmade fs stage.root b (name :: more) := by
  have hnames : ∀ key ∈ before ++ name :: more, Path.IsName key :=
    fun _ hkey => Path.isName_of_mem_names (hsplit ▸ hkey)
  have hbefore : ∀ key ∈ before, Path.IsName key :=
    fun key hkey => hnames key (List.mem_append_left _ hkey)
  have hfits : ((before ++ name :: more).foldl Path.child stage.jailRoot).Fits := hsplit ▸ hroot
  -- The walk follows the words of the root, and its turns are those without the idle dots.
  have hlead : (stage.jailRoot.words ++ before).filter (· ≠ Path.dot) =
      stage.jailRoot.turns ++ before := by
    rw [← Path.words_foldl_child _ hbefore, ← Path.turns_eq, Path.turns_foldl_child _ hbefore]
  have hlast : ∃ front last, stage.root.words = front ++ [last] ∧ last ≠ Path.dot :=
    exists_last_of_names stage.jailRoot (by rw [hsplit]; simp)
  obtain ⟨mode, hmode, -⟩ := id hb
  refine ⟨?_, ⟨stage.jailRoot.turns ++ before, ?_, n, hn, ?_⟩, hlast, ⟨mode, hmode⟩,
    fun key hkey => hnames key (List.mem_append_right _ hkey), name, more, rfl, hfree⟩
  · rw [hsplit]
    exact reach?_of_walk hjail.ne_nil hnames hfits hn hwalk hb hfree
  · rw [root, Path.turns_reroot, hsplit, List.append_assoc]
  · rw [start, root, Path.isAbsolute_reroot, ← hlead]
    exact hwalk.unpad (pads_filter _)

/-- A pass that makes anything of a copy's path makes it where the staging root
leads no further. -/
theorem exists_unmade {fs₁ : FileSystem} {result : Except IoError Unit}
    (hjail : fs.find true stage.jailRoot = .ok (r, .directory mode es))
    (hne : stage.staging.names ≠ []) (hroot : ¬ fs.isDirectory stage.root)
    (hmake : fs.makeDirectories (stage.copyPath p) = (result, fs₁)) (hchanged : fs₁ ≠ fs) :
    ∃ b K, fs.reach? stage.jailRoot stage.staging.names = some b ∧ Unmade fs stage.root b K := by
  obtain ⟨ps, hps⟩ := exists_makeEach_eq fs (stage.copyPath p)
  have hfits : (stage.copyPath p).Fits := fits_of_makeEach (hps ▸ hmake) hchanged
  obtain ⟨rest, hrest⟩ := exists_copyPath_bytes_eq stage p
  have hrootFits : stage.root.Fits :=
    hfits.of_bytes_eq (Path.bytes_ne_nil_of_words (words_reroot_ne_nil stage.jailRoot hne)) hrest
  -- Some path of the lineage can be made at once; it lies beyond the jail's root.
  obtain ⟨q, hq, made, hone⟩ := exists_makeDirectory_of_makeEach hmake hchanged
  obtain ⟨d, name, mode', hplaced, -⟩ := makeDirectory_eq_ok hone
  obtain ⟨hjailFits, ⟨m, -, hjailWalk⟩, -⟩ := find_true_eq_ok_iff.mp hjail
  have hbegins := begins_of_mem_lineage hq
  have hstart : fs.start q = fs.start stage.jailRoot := by
    rw [start, start, hbegins.isAbsolute_eq, copyPath_isAbsolute, root, Path.isAbsolute_reroot]
  have hturns : (stage.copyPath p).turns =
      stage.jailRoot.turns ++ (stage.staging.names ++ p.names) := by
    rw [copyPath_turns, root, Path.turns_reroot, List.append_assoc]
  have hjailTurns : fs.Walk m (fs.start q) stage.jailRoot.turns r :=
    hstart ▸ hjailWalk.unpad (pads_filter _)
  obtain ⟨before, n, hmade, hbefore, hn, hwalk⟩ :=
    hplaced.exists_beyond (hturns ▸ hbegins.turns_prefix) hjailTurns
  have hd := hplaced.names.enters.searchable
  by_cases hwithin : before ++ [name] <+: stage.staging.names
  · obtain ⟨more, hmore⟩ := hwithin
    rw [List.append_assoc, List.singleton_append] at hmore
    exact ⟨d, name :: more,
      unmade_of_free hjailFits hrootFits hmore.symm hn (hjailWalk.append hwalk) hd
      hplaced.free⟩
  · -- A directory made beyond the staging root would have it above.
    have hpast : stage.staging.names <+: before := by
      rcases List.prefix_or_prefix_of_prefix hbefore (List.prefix_append _ p.names) with hin | hout
      · exact absurd hin hwithin
      · rcases List.prefix_concat_iff.mp hout with heq | hout
        · exact absurd (heq ▸ List.prefix_refl _) hwithin
        · exact hout
    obtain ⟨beyond, rfl⟩ := hpast
    have hsame : q.isAbsolute = stage.root.isAbsolute := by
      rw [hbegins.isAbsolute_eq, copyPath_isAbsolute]
    have hbeyond : q.turns = stage.root.turns ++ beyond ++ [name] := by
      rw [hmade, root, Path.turns_reroot, ← List.append_assoc stage.jailRoot.turns]
    exact absurd (hplaced.isDirectory_above hrootFits hsame hbeyond) hroot

/-- A pass that makes the first directory takes place at a site: what is
missing of the staging root is made by names. -/
theorem exists_site {fs₁ : FileSystem}
    (hjail : fs.find true stage.jailRoot = .ok (r, .directory mode es))
    (hne : stage.staging.names ≠ []) (hroot : ¬ fs.isDirectory stage.root)
    (hmake : fs.makeDirectories (stage.copyPath p) = (.ok (), fs₁)) :
    ∃ b K, K ≠ [] ∧ Site fs stage.root b K ∧ fs.tree.look (b ++ K) = none := by
  have hbytes : stage.root.bytes ≠ [] :=
    Path.bytes_ne_nil_of_words (words_reroot_ne_nil stage.jailRoot hne)
  have hdir := isDirectory_makeDirectories (copyPath_ne_nil hbytes p) hmake
  -- If making it had changed nothing, the staging root would have been seen before.
  have hchanged : fs₁ ≠ fs := by
    rintro rfl
    exact hroot (isDirectory_root hbytes hdir)
  obtain ⟨b, K, -, hunmade⟩ := exists_unmade hjail hne hroot hmake hchanged
  obtain ⟨l, mode', es', hfind⟩ := isDirectory_iff.mp hdir
  refine ⟨b, K, hunmade.ne_nil, hunmade.site fun key hkey => ?_, hunmade.look_root⟩
  apply isEntryName_of_mem_names hfind
  rw [copyPath_names]
  exact List.mem_append_left _ (hunmade.mem_names hkey)

end Stage

end Confinement
