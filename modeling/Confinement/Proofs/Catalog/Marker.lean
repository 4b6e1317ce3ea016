import Confinement.Catalog
import Confinement.Proofs.Lookup.ModuleFile
import Confinement.Proofs.Path.Nesting

/-!
# Names behind a marker

The name of an extension is read off the segments below its search directory,
or off those behind the last marker among them: the marker of third-party
extensions, wherever it stands, before that of built-in ones (`Telling`).  What
is left spells the name, the last segment up to its first dot (`Spells`).

What stands before the marker that decides has no say, so a package keeps its
names wherever it is installed (`extensionName?_relocate`).
-/

namespace Confinement

open Confinement.Path (Component IsName)

variable {marker : String} {segments rest : List String} {b d : Path}

/-! ## The last occurrence of a marker -/

theorem behindLast?_append_cons (hrest : marker ∉ rest) (front : List String) :
    behindLast? marker (front ++ marker :: rest) = some rest := by
  have hcontains : (front ++ marker :: rest).contains marker = true := by simp
  have hbehind : ∀ s ∈ rest.reverse, decide (s ≠ marker) = true := by
    intro s hs
    exact decide_eq_true fun heq => hrest (heq ▸ List.mem_reverse.mp hs)
  rw [behindLast?, if_pos hcontains, List.reverse_append, List.reverse_cons, List.append_assoc,
    List.takeWhile_append_of_pos hbehind, List.singleton_append,
    List.takeWhile_cons_of_neg (by simp), List.append_nil, List.reverse_reverse]

theorem behindLast?_eq_none_iff : behindLast? marker segments = none ↔ marker ∉ segments := by
  unfold behindLast?
  split <;> simp_all

theorem exists_append_cons_of_mem (h : marker ∈ segments) :
    ∃ front rest, segments = front ++ marker :: rest ∧ marker ∉ rest := by
  obtain ⟨rest, front, hsplit, hrest⟩ := List.eq_append_cons_of_mem (List.mem_reverse.mpr h)
  refine ⟨front.reverse, rest.reverse, ?_, by simpa using hrest⟩
  rw [← List.reverse_reverse segments, hsplit]
  simp

theorem behindLast?_append_of_mem (h : marker ∈ rest) (front : List String) :
    behindLast? marker (front ++ rest) = behindLast? marker rest := by
  obtain ⟨inner, behind, rfl, hbehind⟩ := exists_append_cons_of_mem h
  rw [← List.append_assoc, behindLast?_append_cons hbehind, behindLast?_append_cons hbehind]

/-! ## Segments that tell a name -/

/-- `rest` are the segments that tell the name of an extension: those behind the
last marker of third-party extensions, else those behind the last marker of
built-in ones, else all. -/
inductive Telling : List String → List String → Prop
  | thirdParty {front rest : List String} (last : thirdPartyMarker ∉ rest) :
      Telling (front ++ thirdPartyMarker :: rest) rest
  | builtin {front rest : List String}
      (noThirdParty : thirdPartyMarker ∉ front ++ builtinMarker :: rest)
      (last : builtinMarker ∉ rest) : Telling (front ++ builtinMarker :: rest) rest
  | all {segments : List String} (noThirdParty : thirdPartyMarker ∉ segments)
      (noBuiltin : builtinMarker ∉ segments) : Telling segments segments

/-- The segments that tell the name. -/
def telling (segments : List String) : List String :=
  (behindLast? thirdPartyMarker segments <|> behindLast? builtinMarker segments).getD segments

theorem Telling.telling_eq (h : Telling segments rest) : telling segments = rest := by
  unfold telling
  cases h with
  | thirdParty hlast => rw [behindLast?_append_cons hlast]; rfl
  | builtin hnone hlast =>
      rw [behindLast?_eq_none_iff.mpr hnone, behindLast?_append_cons hlast]
      rfl
  | all hthird hbuiltin =>
      rw [behindLast?_eq_none_iff.mpr hthird, behindLast?_eq_none_iff.mpr hbuiltin]
      rfl

theorem telling_telling (segments : List String) : Telling segments (telling segments) := by
  by_cases hthird : thirdPartyMarker ∈ segments
  · -- The last of them counts, so none stands behind it.
    obtain ⟨front, rest, rfl, hlast⟩ := exists_append_cons_of_mem hthird
    have htelling : Telling (front ++ thirdPartyMarker :: rest) rest := .thirdParty hlast
    rwa [htelling.telling_eq]
  · by_cases hbuiltin : builtinMarker ∈ segments
    · obtain ⟨front, rest, rfl, hlast⟩ := exists_append_cons_of_mem hbuiltin
      have htelling : Telling (front ++ builtinMarker :: rest) rest := .builtin hthird hlast
      rwa [htelling.telling_eq]
    · have htelling : Telling segments segments := .all hthird hbuiltin
      rwa [htelling.telling_eq]

theorem Telling.suffix (h : Telling segments rest) : rest <:+ segments := by
  cases h with
  | thirdParty | builtin => exact (List.suffix_cons _ _).trans (List.suffix_append _ _)
  | all => exact List.suffix_refl _

/-- Behind a marker of third-party extensions nothing before it counts. -/
theorem telling_thirdParty (front rest : List String) :
    telling (front ++ thirdPartyMarker :: rest) = telling (thirdPartyMarker :: rest) := by
  have hmem : thirdPartyMarker ∈ thirdPartyMarker :: rest := List.mem_cons_self
  obtain ⟨inner, behind, hsplit, hbehind⟩ := exists_append_cons_of_mem hmem
  rw [hsplit, ← List.append_assoc, (Telling.thirdParty hbehind).telling_eq,
    (Telling.thirdParty hbehind).telling_eq]

/-- Behind a marker of built-in extensions nothing before it counts, unless
there is one of third-party extensions. -/
theorem telling_builtin (hfront : thirdPartyMarker ∉ front) (rest : List String) :
    telling (front ++ builtinMarker :: rest) = telling (builtinMarker :: rest) := by
  have hmem : builtinMarker ∈ builtinMarker :: rest := List.mem_cons_self
  unfold telling
  rw [behindLast?_append_of_mem hmem]
  by_cases hthird : thirdPartyMarker ∈ builtinMarker :: rest
  · obtain ⟨inner, behind, hsplit, hbehind⟩ := exists_append_cons_of_mem hthird
    rw [hsplit, ← List.append_assoc, behindLast?_append_cons hbehind,
      behindLast?_append_cons hbehind]
    rfl
  · obtain ⟨inner, behind, hsplit, hbehind⟩ := exists_append_cons_of_mem hmem
    rw [behindLast?_eq_none_iff.mpr (by simp [hfront, List.mem_append, hthird]),
      behindLast?_eq_none_iff.mpr hthird, hsplit, behindLast?_append_cons hbehind]
    rfl

/-! ## Segments that spell a name -/

/-- What segments spell: all but the last, and that one up to its first dot,
with dots between them.  Without a last segment, or with one that starts with a
dot, they spell nothing. -/
inductive Spells : List String → Option String → Prop
  | nothing : Spells [] none
  | hidden {front : List String} {last : String} (starts : last.toList.head? = some '.') :
      Spells (front ++ [last]) none
  | dotted {front : List String} {last stem : String} (nonempty : stem ≠ "")
      (plain : '.' ∉ stem.toList) (cut : last = stem ∨ ∃ tail, last = stem ++ "." ++ tail) :
      Spells (front ++ [last]) (some (String.intercalate "." (front ++ [stem])))

/-- A text is its part before the first dot, or goes on with that dot. -/
theorem Text.eq_before_or (s : String) :
    s = before '.' s ∨ ∃ tail, s = before '.' s ++ "." ++ tail := by
  have hsplit : s.toList.takeWhile (· != '.') ++ s.toList.dropWhile (· != '.') = s.toList :=
    List.takeWhile_append_dropWhile
  unfold before
  cases hrest : s.toList.dropWhile (· != '.') with
  | nil =>
      left
      rw [hrest, List.append_nil] at hsplit
      rw [hsplit, String.ofList_toList]
  | cons c tail =>
      right
      have hc : c = '.' := by
        have hhead := List.head?_dropWhile_not (· != '.') s.toList
        rw [hrest] at hhead
        simpa using hhead
      refine ⟨String.ofList tail, String.toList_inj.mp ?_⟩
      rw [hrest, hc] at hsplit
      simpa using hsplit.symm

theorem spells_dottedName? (hsegments : ∀ s ∈ segments, s ≠ "") :
    Spells segments (dottedName? segments) := by
  rcases List.eq_nil_or_concat' segments with rfl | ⟨front, last, rfl⟩
  · exact .nothing
  · have hlast : last ≠ "" := hsegments last (by simp)
    unfold dottedName?
    simp only [List.getLast?_concat, List.dropLast_concat]
    by_cases hempty : Text.before '.' last = ""
    · rw [hempty, if_pos (by rfl)]
      refine .hidden ?_
      rcases Text.eq_before_or last with heq | ⟨tail, heq⟩
      · exact absurd (heq.trans hempty) hlast
      · rw [heq, hempty]
        simp
    · rw [if_neg (by simpa using hempty)]
      exact .dotted hempty (Text.sep_notMem_before '.' last) (Text.eq_before_or last)

/-! ## Where a package lies -/

/-- The texts among the names of a file below a directory. -/
def textsBelow (directory file : Path) : List String :=
  (file.componentsBelow directory).filterMap fun c => c.name?.bind Utf8.decode?

theorem extensionName?_eq (directory file : Path) :
    extensionName? directory file = dottedName? (telling (textsBelow directory file)) := rfl

/-- Segments joined to a path below a directory come behind what is below the
directory already. -/
theorem textsBelow_descend (hbelow : d.isBelow b)
    (hsegments : ∀ s ∈ segments, IsName (Utf8.encode s)) :
    textsBelow b (d.descend segments) = textsBelow b d ++ segments := by
  obtain ⟨inner, hinner⟩ := Path.isBelow_iff.mp hbelow
  have hcomponents := components_descend d hsegments
  rw [← hinner, List.append_assoc] at hcomponents
  have htexts : ((segments.map Utf8.encode).map Component.normal).filterMap
      (fun c => c.name?.bind Utf8.decode?) = segments := by
    rw [List.map_map, List.filterMap_map]
    simp [Function.comp_def, Component.name?, Utf8.decode?_encode]
  rw [textsBelow, textsBelow, Path.componentsBelow_of_eq_append hcomponents,
    Path.componentsBelow_of_eq_append hinner.symm, List.filterMap_append, htexts]

theorem textsBelow_self (b : Path) : textsBelow b b = [] := by
  rw [textsBelow, Path.componentsBelow_of_eq_append (List.append_nil _).symm]
  rfl

theorem extensionName?_descend (b : Path) (hsegments : ∀ s ∈ segments, IsName (Utf8.encode s)) :
    extensionName? b (b.descend segments) = dottedName? (telling segments) := by
  rw [extensionName?_eq, textsBelow_descend (Path.isBelow_refl b) hsegments, textsBelow_self,
    List.nil_append]

/-- The name of an extension is what the segments behind the deciding marker
spell.  It is the same behind every directory: whatever stands before a marker
of third-party extensions makes no difference, and before one of built-in
extensions only another of third-party extensions does. -/
theorem extensionName?_relocate :
    (∀ (b : Path) (segments : List String), (∀ s ∈ segments, IsName (Utf8.encode s)) →
      ∃ rest, Telling segments rest ∧ (∀ other, Telling segments other → other = rest) ∧
        Spells rest (extensionName? b (b.descend segments))) ∧
    ∀ (b b' d d' : Path) (rest : List String), d.isBelow b → d'.isBelow b' →
      (∀ s ∈ rest, IsName (Utf8.encode s)) →
      extensionName? b (d.descend (thirdPartyMarker :: rest)) =
        extensionName? b' (d'.descend (thirdPartyMarker :: rest)) ∧
      (thirdPartyMarker ∉ textsBelow b d → thirdPartyMarker ∉ textsBelow b' d' →
        extensionName? b (d.descend (builtinMarker :: rest)) =
          extensionName? b' (d'.descend (builtinMarker :: rest))) := by
  constructor
  · intro b segments hsegments
    have htelling := telling_telling segments
    refine ⟨telling segments, htelling, fun other hother => hother.telling_eq.symm, ?_⟩
    rw [extensionName?_descend b hsegments]
    refine spells_dottedName? fun s hs heq => ?_
    exact (hsegments s (htelling.suffix.mem hs)).ne_nil (heq ▸ rfl)
  · intro b b' d d' rest hbelow hbelow' hrest
    have hthird : ∀ s ∈ thirdPartyMarker :: rest, IsName (Utf8.encode s) :=
      List.forall_mem_cons.mpr ⟨by decide, hrest⟩
    have hbuiltin : ∀ s ∈ builtinMarker :: rest, IsName (Utf8.encode s) :=
      List.forall_mem_cons.mpr ⟨by decide, hrest⟩
    refine ⟨?_, fun hfront hfront' => ?_⟩
    · rw [extensionName?_eq, extensionName?_eq, textsBelow_descend hbelow hthird,
        textsBelow_descend hbelow' hthird, telling_thirdParty, telling_thirdParty]
    · rw [extensionName?_eq, extensionName?_eq, textsBelow_descend hbelow hbuiltin,
        textsBelow_descend hbelow' hbuiltin, telling_builtin hfront, telling_builtin hfront']

/-- A package with a directory that is called like the other marker has the same
names in two places. -/
theorem extensionName?_relocate_nested :
    let rest := ["x", builtinMarker, "y.abi3.so"]
    (∀ s ∈ rest, IsName (Utf8.encode s)) ∧
    Path.isBelow "/usr/lib/python3" "/usr/lib" ∧ Path.isBelow "lib/../site-packages" "lib" ∧
    extensionName? "/usr/lib" (Path.descend "/usr/lib/python3" (thirdPartyMarker :: rest)) =
      some "x.lib-dynload.y" ∧
    extensionName? "lib" (Path.descend "lib/../site-packages" (thirdPartyMarker :: rest)) =
      some "x.lib-dynload.y" ∧
    Telling rest ["y.abi3.so"] ∧
    Spells ["y.abi3.so"] (extensionName? "/" (Path.descend "/" rest)) := by
  intro rest
  have hrest : ∀ s ∈ rest, IsName (Utf8.encode s) := by decide
  have hbelow : Path.isBelow "/usr/lib/python3" "/usr/lib" := by decide +kernel
  have hbelow' : Path.isBelow "lib/../site-packages" "lib" := by decide +kernel
  have hname : extensionName? "/usr/lib" (Path.descend "/usr/lib/python3"
      (thirdPartyMarker :: rest)) = some "x.lib-dynload.y" := by decide +kernel
  obtain ⟨htold, hmoved⟩ := extensionName?_relocate
  have htelling : Telling (["x"] ++ builtinMarker :: ["y.abi3.so"]) ["y.abi3.so"] :=
    .builtin (by decide) (by decide)
  obtain ⟨told, -, hunique, hspells⟩ := htold "/" rest hrest
  refine ⟨hrest, hbelow, hbelow', hname, ?_, htelling, hunique _ htelling ▸ hspells⟩
  rw [← hname]
  exact (hmoved _ _ _ _ rest hbelow' hbelow hrest).1

end Confinement
