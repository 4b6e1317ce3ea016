import Confinement.Proofs.FileSystem.FileName
import Confinement.Proofs.Text.Words
import Confinement.Registry
import Mathlib.Data.List.TakeWhile

/-!
# Names bound by a table of mappings

A table has a line for each mapping: five columns, and then the path, which
runs to the end of the line and may have blanks in it (`Mapping`).  The
registry should bind the module name of each mapped object to its path, and
the first binding should stay (`Mapping.claim?`).

It takes the sixth word of a line for the path, and a path with a blank in it
is cut there.  So what is bound is the module name of the path up to its first
blank, to that part of the path (`Mapping.offer?`).

* `originOf?_registerMappings_table`: every table is read in this way;
* `registerMappings_faithful_iff`: the names bound are those that should be,
  whichever of the mappings are in the table, exactly if no mapped object with
  a blank in its path has a module name, nor has the part before the blank.
-/

namespace Confinement

open Text (isBlank)

namespace Registry

/-- The object at a path, by its module name, if the path is absolute. -/
def offerOf? (path : String) : Option (String × Path) :=
  if path.toList.head? = some '/' then
    (moduleName? (.ofString path)).map fun name => (name, .ofString path)
  else none

/-! ## First come, first bound -/

/-- What is offered for a name is bound to it if the name is free. -/
theorem originOf?_register (r : Registry) (other : String) (origin : Path) (name : String) :
    (r.register other origin).originOf? name =
      (r.originOf? name).or ([(other, origin)].lookup name) := by
  unfold register
  split
  · rename_i hbound
    obtain ⟨path, hpath⟩ := Option.isSome_iff_exists.mp hbound
    -- The name is taken. So nothing changes for it, and the offer tells nothing of other names.
    by_cases heq : name = other
    · subst heq
      rw [hpath, Option.some_or]
    · have hother : (name == other) = false := beq_false_of_ne heq
      rw [List.lookup_cons, hother]
      exact Option.or_none.symm
  · exact List.lookup_append

/-- Of several offers for a free name the first counts. -/
theorem originOf?_foldl_register (r : Registry) (offers : List (String × Path)) (name : String) :
    (offers.foldl (fun r offer => r.register offer.1 offer.2) r).originOf? name =
      (r.originOf? name).or (offers.lookup name) := by
  induction offers generalizing r with
  | nil => exact Option.or_none.symm
  | cons offer offers ih =>
      have hlookup : ([offer] ++ offers).lookup name =
          ([offer].lookup name).or (offers.lookup name) := List.lookup_append
      rw [List.foldl_cons, ih, originOf?_register, Option.or_assoc, ← hlookup]
      rfl

/-- What a line offers. -/
def offerOfLine? (line : String) : Option (String × Path) :=
  ((Text.words line)[5]?).bind offerOf?

theorem registerMapping_eq (r : Registry) (line : String) :
    r.registerMapping line =
      match offerOfLine? line with
      | some offer => r.register offer.1 offer.2
      | none => r := by
  unfold registerMapping mappedPath? offerOfLine?
  cases (Text.words line)[5]? with
  | none => rfl
  | some path =>
      rw [Option.bind_some, offerOf?]
      by_cases habsolute : path.toList.head? = some '/'
      · simp only [if_pos habsolute]
        cases moduleName? (.ofString path) <;> rfl
      · simp only [if_neg habsolute]

theorem registerMappings_eq (r : Registry) (table : String) :
    r.registerMappings table =
      ((Text.lines table).filterMap offerOfLine?).foldl
        (fun r offer => r.register offer.1 offer.2) r := by
  rw [List.foldl_filterMap, registerMappings]
  congr 1
  funext r line
  rw [registerMapping_eq]
  cases offerOfLine? line <;> rfl

theorem originOf?_registerMappings (table name : String) :
    (({} : Registry).registerMappings table).originOf? name =
      ((Text.lines table).filterMap offerOfLine?).lookup name := by
  rw [registerMappings_eq, originOf?_foldl_register]
  rfl

end Registry

/-! ## Mappings -/

/-- A memory mapping.  The path is empty where nothing backs the mapping, and
otherwise stands apart from the columns. -/
structure Mapping where
  address : String
  permissions : String
  offset : String
  device : String
  inode : String
  padding : Nat
  path : String
  isWord : ∀ column ∈ [address, permissions, offset, device, inode], Text.IsWord column
  padded : path.toList ≠ [] → 0 < padding
  front : ∀ c ∈ path.toList.head?, isBlank c = false
  oneLine : '\n' ∉ path.toList

namespace Mapping

/-- The line of a mapping. -/
def chars (m : Mapping) : List Char :=
  m.address.toList ++ ' ' :: (m.permissions.toList ++ ' ' :: (m.offset.toList ++ ' ' ::
    (m.device.toList ++ ' ' :: (m.inode.toList ++ (List.replicate m.padding ' ' ++
      m.path.toList)))))

/-- The lines of the mappings, each with a line feed. -/
def table (ms : List Mapping) : String :=
  String.ofList ((ms.map chars).flatMap (· ++ ['\n']))

/-- The path up to its first blank. -/
def firstWord (m : Mapping) : String := String.ofList (m.path.toList.takeWhile (!isBlank ·))

/-- What the mapping should offer. -/
def claim? (m : Mapping) : Option (String × Path) := Registry.offerOf? m.path

/-- What the mapping offers. -/
def offer? (m : Mapping) : Option (String × Path) := Registry.offerOf? m.firstWord

variable {m : Mapping} {ms : List Mapping}

/-! ## Reading a line -/

theorem lineFeed_notMem_chars (m : Mapping) : '\n' ∉ m.chars := by
  have hcolumn : ∀ column ∈ [m.address, m.permissions, m.offset, m.device, m.inode],
      '\n' ∉ column.toList := by
    intro column hmem hin
    have := (m.isWord column hmem).isBlank_eq_false _ hin
    revert this
    decide
  simp only [List.mem_cons, List.not_mem_nil, or_false, forall_eq_or_imp, forall_eq] at hcolumn
  obtain ⟨haddress, hpermissions, hoffset, hdevice, hinode⟩ := hcolumn
  simp [chars, haddress, hpermissions, hoffset, hdevice, hinode, m.oneLine]

/-- The words of a line are its columns and the words of the path. -/
theorem wordChars_chars (m : Mapping) : Text.wordChars m.chars =
    [m.address.toList, m.permissions.toList, m.offset.toList, m.device.toList, m.inode.toList] ++
      Text.wordChars m.path.toList := by
  have hspace : isBlank ' ' = true := by decide
  have hisWord := m.isWord
  simp only [List.mem_cons, List.not_mem_nil, or_false, forall_eq_or_imp, forall_eq] at hisWord
  obtain ⟨haddress, hpermissions, hoffset, hdevice, hinode⟩ := hisWord
  have htail : Text.wordChars (m.inode.toList ++ (List.replicate m.padding ' ' ++ m.path.toList)) =
      m.inode.toList :: Text.wordChars m.path.toList := by
    cases hpadding : m.padding with
    | zero =>
        have hpath : m.path.toList = [] := by
          by_contra hne
          exact absurd (m.padded hne) (by omega)
        rw [hpath, List.replicate_zero, List.append_nil, List.append_nil,
          Text.wordChars_of_forall hinode.ne_nil hinode.isBlank_eq_false]
        rfl
    | succ n =>
        rw [List.replicate_succ, List.cons_append, hinode.wordChars_append hspace,
          Text.wordChars_replicate_append hspace]
  rw [chars, haddress.wordChars_append hspace, hpermissions.wordChars_append hspace,
    hoffset.wordChars_append hspace, hdevice.wordChars_append hspace, htail]
  rfl

/-- The sixth word of a line is the path up to its first blank. -/
theorem words_chars (m : Mapping) :
    (Text.words (String.ofList (Text.dropReturn m.chars)))[5]? =
      if m.path.toList = [] then none else some m.firstWord := by
  rw [Text.words_eq, String.toList_ofList, Text.wordChars_dropReturn, wordChars_chars,
    List.map_append, List.getElem?_append_right (by simp)]
  have hhead : (Text.wordChars m.path.toList)[0]? =
      if m.path.toList = [] then none else some (m.path.toList.takeWhile (!isBlank ·)) := by
    rw [← List.head?_eq_getElem?]
    split
    · rename_i hpath
      rw [hpath]
      rfl
    · rename_i hpath
      exact Text.head?_wordChars hpath m.front
  simp only [List.length_map, List.length_cons, List.length_nil, Nat.reduceAdd, Nat.sub_self,
    List.getElem?_map, hhead]
  split <;> rfl

theorem offerOfLine?_chars (m : Mapping) :
    Registry.offerOfLine? (String.ofList (Text.dropReturn m.chars)) = m.offer? := by
  rw [Registry.offerOfLine?, words_chars, offer?]
  split
  · rename_i hpath
    rw [firstWord, hpath]
    rfl
  · rfl

/-- A table is read as what its mappings offer. -/
theorem originOf?_registerMappings_table (ms : List Mapping) (name : String) :
    (({} : Registry).registerMappings (table ms)).originOf? name =
      (ms.filterMap offer?).lookup name := by
  have hlines : Text.lines (table ms) =
      ms.map fun m => String.ofList (Text.dropReturn m.chars) := by
    have hall : ∀ l ∈ ms.map chars, '\n' ∉ l := by
      intro l hl
      obtain ⟨m, -, rfl⟩ := List.mem_map.mp hl
      exact m.lineFeed_notMem_chars
    rw [Text.lines, table, String.toList_ofList, Text.lineChars_flatMap hall, List.map_map,
      List.map_map]
    rfl
  have hoffers : (fun m : Mapping =>
      Registry.offerOfLine? (String.ofList (Text.dropReturn m.chars))) = offer? :=
    funext offerOfLine?_chars
  rw [Registry.originOf?_registerMappings, hlines, List.filterMap_map, Function.comp_def, hoffers]

/-! ## What is bound and what should be -/

theorem firstWord_eq_path (h : ∀ c ∈ m.path.toList, isBlank c = false) : m.firstWord = m.path := by
  have hall : m.path.toList.takeWhile (!isBlank ·) = m.path.toList := by
    rw [List.takeWhile_eq_self_iff]
    intro c hc
    simp [h c hc]
  rw [firstWord, hall, String.ofList_toList]

theorem firstWord_ne_path {c : Char} (hc : c ∈ m.path.toList) (hblank : isBlank c = true) :
    m.firstWord ≠ m.path := by
  intro hword
  have hchars := congrArg String.toList hword
  rw [firstWord, String.toList_ofList] at hchars
  have hall := List.takeWhile_eq_self_iff.mp hchars c hc
  simp [hblank] at hall

theorem head?_firstWord (m : Mapping) : m.firstWord.toList.head? = m.path.toList.head? := by
  have hfront := m.front
  rw [firstWord, String.toList_ofList]
  cases hpath : m.path.toList with
  | nil => rfl
  | cons c cs =>
      rw [hpath] at hfront
      simp [hfront c rfl]

/-- A mapping offers what it should unless a blank in its path gets in the
way. -/
theorem offer?_eq_claim?_iff (m : Mapping) : m.offer? = m.claim? ↔
    (m.path.toList.head? = some '/' → (∃ c ∈ m.path.toList, isBlank c = true) →
      moduleName? (.ofString m.path) = none ∧ moduleName? (.ofString m.firstWord) = none) := by
  rw [offer?, claim?, Registry.offerOf?, Registry.offerOf?, head?_firstWord]
  by_cases habsolute : m.path.toList.head? = some '/'
  · simp only [if_pos habsolute]
    constructor
    · rintro heq - ⟨c, hc, hblank⟩
      -- The cut path is another path, so two offers that agree are both none.
      have hcut : Path.ofString m.firstWord ≠ .ofString m.path := fun hsame =>
        firstWord_ne_path hc hblank (Utf8.encode_injective (congrArg Path.bytes hsame))
      cases hpath : moduleName? (.ofString m.path) <;>
        cases hword : moduleName? (.ofString m.firstWord) <;>
        simp [hpath, hword, hcut] at heq ⊢
    · intro hnone
      by_cases hblank : ∃ c ∈ m.path.toList, isBlank c = true
      · obtain ⟨hpath, hword⟩ := hnone habsolute hblank
        simp only [hpath, hword, Option.map_none]
      · have hall : ∀ c ∈ m.path.toList, isBlank c = false := by simpa using hblank
        rw [firstWord_eq_path hall]
  · simp only [if_neg habsolute, true_iff]
    exact fun h => absurd h habsolute

/-- Look-ups tell which of two things is offered. -/
theorem eq_of_lookup_toList {o o' : Option (String × Path)}
    (h : ∀ name, o.toList.lookup name = o'.toList.lookup name) : o = o' := by
  have hself : ∀ offer : String × Path, [offer].lookup offer.1 = some offer.2 := by
    intro offer
    rw [List.lookup_cons, beq_self_eq_true]
  have hname : ∀ {offer : String × Path} {name origin}, [offer].lookup name = some origin →
      offer = (name, origin) := by
    intro offer name origin hlookup
    rw [List.lookup_cons] at hlookup
    split at hlookup
    · rename_i heq
      rw [beq_iff_eq] at heq
      rw [heq, ← Option.some.inj hlookup]
    · cases hlookup
  cases o with
  | none =>
      cases o' with
      | none => rfl
      | some offer' => cases (h offer'.1).trans (hself offer')
  | some offer =>
      cases o' with
      | none => cases (h offer.1).symm.trans (hself offer)
      | some offer' => rw [hname ((h offer.1).symm.trans (hself offer))]

/-- Each name is bound as it should be, whichever of the mappings are in the
table, exactly if no path with a blank in it has a module name, nor has the part
before the blank. -/
theorem registerMappings_faithful_iff (ms : List Mapping) :
    (∀ ts ⊆ ms, ∀ name, (({} : Registry).registerMappings (table ts)).originOf? name =
      (ts.filterMap claim?).lookup name) ↔
    ∀ m ∈ ms, m.path.toList.head? = some '/' → (∃ c ∈ m.path.toList, isBlank c = true) →
      moduleName? (.ofString m.path) = none ∧ moduleName? (.ofString m.firstWord) = none := by
  constructor
  · intro h m hm
    rw [← offer?_eq_claim?_iff]
    apply eq_of_lookup_toList
    intro name
    -- A table of one mapping tells whether that one is read as it should be.
    have hone := h [m] (List.cons_subset.mpr ⟨hm, List.nil_subset ms⟩) name
    rw [originOf?_registerMappings_table] at hone
    have hsingle : ∀ f : Mapping → Option (String × Path),
        [m].filterMap f = (f m).toList := by
      intro f
      rw [List.filterMap_cons, List.filterMap_nil]
      cases f m <;> rfl
    rwa [hsingle, hsingle] at hone
  · intro h ts hsub name
    have hoffers : ts.filterMap offer? = ts.filterMap claim? := by
      apply List.filterMap_congr
      intro m hm
      exact m.offer?_eq_claim?_iff.mpr (h m (hsub hm))
    rw [originOf?_registerMappings_table, hoffers]

/-- An object in a directory whose name has a blank in it. -/
def spaced : Mapping where
  address := "7f0000000000-7f0000001000"
  permissions := "r-xp"
  offset := "00000000"
  device := "08:01"
  inode := "1"
  padding := 1
  path := "/opt/my lib/libfoo.so"
  isWord := by simp [Text.isWord_iff, isBlank]
  padded _ := by decide
  front := by simp [isBlank]
  oneLine := by simp

/-- Its name is not bound, and one that no mapped object bears is. -/
theorem registerMappings_spaced :
    table [spaced] =
        "7f0000000000-7f0000001000 r-xp 00000000 08:01 1 /opt/my lib/libfoo.so\n" ∧
      spaced.claim? = some ("libfoo", .ofString "/opt/my lib/libfoo.so") ∧
      (({} : Registry).registerMappings (table [spaced])).originOf? "libfoo" = none ∧
      (({} : Registry).registerMappings (table [spaced])).originOf? "my" =
        some (.ofString "/opt/my") ∧
      ¬ ∀ (ms : List Mapping) (name : String),
        (({} : Registry).registerMappings (table ms)).originOf? name =
          (ms.filterMap claim?).lookup name := by
  have htable : table [spaced] =
      "7f0000000000-7f0000001000 r-xp 00000000 08:01 1 /opt/my lib/libfoo.so\n" := by
    simp [table, chars, spaced]
  have hclaim : spaced.claim? = some ("libfoo", .ofString "/opt/my lib/libfoo.so") := by
    decide +kernel
  have hoffer : spaced.offer? = some ("my", .ofString "/opt/my") := by decide +kernel
  have hbindings : ∀ name, (({} : Registry).registerMappings (table [spaced])).originOf? name =
      [("my", Path.ofString "/opt/my")].lookup name := by
    intro name
    rw [originOf?_registerMappings_table, List.filterMap_cons, hoffer]
    rfl
  have hfree : (({} : Registry).registerMappings (table [spaced])).originOf? "libfoo" = none := by
    simp [hbindings, List.lookup_cons]
  have hbound : (({} : Registry).registerMappings (table [spaced])).originOf? "my" =
      some (.ofString "/opt/my") := by
    rw [hbindings, List.lookup_cons, beq_self_eq_true]
  refine ⟨htable, hclaim, hfree, hbound, fun h => ?_⟩
  have hclaimed := h [spaced] "libfoo"
  rw [hfree, List.filterMap_cons, hclaim] at hclaimed
  simp at hclaimed

end Mapping

end Confinement
