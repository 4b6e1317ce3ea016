import Confinement.CommandLine.Run
import Confinement.Proofs.Extensions
import Confinement.Proofs.Json.Lists
import Confinement.Proofs.Json.Strings
import Confinement.Proofs.Text.Lines

/-!
# Printed catalogs read back

A catalog is printed with one name a line or as a JSON list, and both can be read
back.  The lines are a list file, so names stay what they are if they are list
entries: blanks around a name and names with nothing else would be dropped, and a
line feed would end the name (`listed_render`).  A JSON list escapes what its
reader would take for something else, so there all names stay what they are
(`reads_renderJson`).  `printed_read_back` puts this together.
-/

namespace Confinement.Catalog

open CommandLine (renderCatalog)
open ExtensionSet (readList mergeFile listed clean baseline)

variable {c : Catalog}

/-! ## One name a line -/

/-- A name that a list file keeps. -/
def IsListEntry (name : String) : Prop := name ≠ "" ∧ '\n' ∉ name.toList ∧ Text.trim name = name

instance (name : String) : Decidable (IsListEntry name) := inferInstanceAs (Decidable (_ ∧ _ ∧ _))

theorem map_trim_of_isListEntry {names : List String} (h : ∀ n ∈ names, IsListEntry n) :
    names.map Text.trim = names :=
  calc names.map Text.trim
      = names.map id := List.map_congr_left fun n hn => (h n hn).2.2
    _ = names := List.map_id names

theorem clean_of_isListEntry {names : List String} (h : ∀ n ∈ names, IsListEntry n) :
    clean names = names := by
  rw [clean, map_trim_of_isListEntry h, List.filter_eq_self]
  intro n hn
  simp [(h n hn).1]

/-- The lines of a catalog list its names. -/
theorem listed_render (h : ∀ n ∈ c.names, IsListEntry n) : listed c.render = c.names := by
  have hlines : (Text.lines c.render).map Text.trim = c.names.map Text.trim :=
    Text.map_trim_lines_join fun n hn => (h n hn).2.1
  rw [listed, clean, hlines, ← clean, clean_of_isListEntry h]

/-! ## A JSON list -/

/-- The blanks in front of a name. -/
def indent : Bytes := Utf8.encode "\n  "

/-- The bytes by which a name is spelled. -/
def spellName (name : String) : Bytes := Utf8.encode (jsonString name)

theorem spelled_spellName (wanted : String) : Json.Spelled (Json.string wanted) spellName where
  reads name rest := Json.reads_string wanted name rest
  begins name := ⟨0x22, _, Json.encode_jsonString name, by decide, by decide⟩

/-- Names on lines of their own, with commas between them. -/
theorem encode_intercalate_jsonString (n : String) (ns : List String) :
    Utf8.encode (String.intercalate ",\n" ((n :: ns).map fun n => "  " ++ jsonString n)) =
      Utf8.encode "  " ++ (spellName n ++ Json.followers indent spellName ns) := by
  induction ns generalizing n with
  | nil => simp [Json.followers, spellName, Utf8.encode_append]
  | cons m ns ih =>
      -- The line end behind a comma and the blanks before the next name are one indent.
      have hcomma : Utf8.encode ",\n" ++ Utf8.encode "  " = 0x2C :: indent := by decide
      rw [List.map_cons, String.intercalate_cons_of_ne_nil (by simp), Utf8.encode_append,
        Utf8.encode_append, Utf8.encode_append, ih, ← spellName]
      calc Utf8.encode "  " ++ spellName n ++ Utf8.encode ",\n" ++
            (Utf8.encode "  " ++ (spellName m ++ Json.followers indent spellName ns))
          = Utf8.encode "  " ++ (spellName n ++ ((Utf8.encode ",\n" ++ Utf8.encode "  ") ++
              (spellName m ++ Json.followers indent spellName ns))) := by
            simp only [List.append_assoc]
        _ = Utf8.encode "  " ++ (spellName n ++ Json.followers indent spellName (m :: ns)) := by
            rw [hcomma]
            simp only [Json.followers, List.flatMap_cons, List.cons_append, List.append_assoc]

/-- A catalog as JSON is read back, and all that is left is the end of its line. -/
theorem reads_renderJson (c : Catalog) (wanted : String) :
    Json.Reads (Json.list (Json.string wanted)) (Utf8.encode c.renderJson) c.names
      (Utf8.encode "\n") := by
  have hlast : (Utf8.encode "\n]\n").dropWhile Json.isBlankByte = 0x5D :: Utf8.encode "\n" := by
    decide
  cases hnames : c.names with
  | nil =>
      -- Without names there is no line end between the brackets.
      have hbrackets : Utf8.encode c.renderJson = 0x5B :: Utf8.encode "]\n" := by
        rw [renderJson, hnames]
        rfl
      rw [hbrackets]
      exact Json.reads_list_nil _ (by decide)
  | cons n ns =>
      have hopening : Utf8.encode "[\n" ++ Utf8.encode "  " = 0x5B :: indent := by decide
      have hbytes : Utf8.encode c.renderJson = 0x5B :: (indent ++ (spellName n ++
          (Json.followers indent spellName ns ++ Utf8.encode "\n]\n"))) := by
        rw [renderJson, hnames, List.isEmpty_cons, if_neg Bool.false_ne_true, Utf8.encode_append,
          Utf8.encode_append, encode_intercalate_jsonString, ← List.append_assoc, hopening]
        simp only [List.append_assoc, List.cons_append]
      have hindent : ∀ b ∈ indent, Json.isBlankByte b = true := List.all_eq_true.mp (by decide)
      rw [hbytes]
      exact Json.reads_list_cons (spelled_spellName wanted) hindent hlast n ns

theorem reads_endOfText : Json.Reads Json.endOfText (Utf8.encode "\n") () [] := by
  have hend : (Utf8.encode "\n").dropWhile Json.isBlankByte = [] := by decide
  have htoken := Json.reads_peekToken? (Utf8.encode "\n")
  rw [hend] at htoken
  exact htoken.bind (Json.reads_pure () [])

/-! ## Either way -/

/-- A catalog of list entries that is printed with one name a line is a list file
of exactly its names, and merging it adds these to the baseline.  Any catalog that
is printed as JSON is a list of exactly its names, and the end of a line. -/
theorem printed_read_back (c : Catalog) :
    ((∀ n ∈ c.names, IsListEntry n) → ∀ (fs : FileSystem) (path : Path),
      fs.readBytes path = .ok (Utf8.encode (renderCatalog c false)) →
        readList fs path = .ok c.names ∧
        ∃ merged, (mergeFile fs baseline path).1 = .ok merged ∧ merged.Ordered ∧
          ∀ n, n ∈ merged.names ↔ n ∈ baseline.names ∨ n ∈ c.names) ∧
    ∀ wanted : String,
      (∃ place, (Json.list (Json.string wanted)).at
        (.start (Utf8.encode (renderCatalog c true))) = (.ok c.names, ⟨place, Utf8.encode "\n"⟩)) ∧
      ∃ place, Json.Reader.at (do
          let names ← Json.list (Json.string wanted)
          Json.endOfText
          return names) (.start (Utf8.encode (renderCatalog c true))) =
        (.ok c.names, ⟨place, []⟩) := by
  refine ⟨fun hentries fs path hbytes => ?_, fun wanted => ?_⟩
  · have hread : fs.readText path = .ok c.render := FileSystem.readText_eq_ok_iff.mpr hbytes
    have hlisted : listed c.render = c.names := listed_render hentries
    refine ⟨?_, baseline.extend c.names, ?_, ExtensionSet.ordered_baseline.extend c.names,
      fun n => ?_⟩
    · rw [ExtensionSet.readList_of_readText hread, hlisted]
    · rw [ExtensionSet.mergeFile_of_readText hread, hlisted]
    · rw [ExtensionSet.mem_extend, clean_of_isListEntry hentries]
  · have hlist := reads_renderJson c wanted
    exact ⟨hlist _, hlist.bind (reads_endOfText.bind (Json.reads_pure c.names [])) _⟩

/-- A catalog of names with a control character, an inner carriage return, quotes
and an inner blank of another script. -/
def awkward : Catalog := ⟨["\x01x", "a\rb", "q\"\\", "z\u3000z"]⟩

/-- A file with that catalog as it is printed. -/
def awkwardHost : FileSystem where
  tree := .directory 0o755 [
    (Utf8.encode "names", .file 0o644 (Utf8.encode (renderCatalog awkward false)))]

theorem printed_read_back_awkward :
    readList awkwardHost "/names" = .ok ["\x01x", "a\rb", "q\"\\", "z\u3000z"] ∧
    (∃ merged, (mergeFile awkwardHost baseline "/names").1 = .ok merged ∧
      "a\rb" ∈ merged.names) ∧
    renderCatalog awkward true =
      "[\n  \"\\u0001x\",\n  \"a\\rb\",\n  \"q\\\"\\\\\",\n  \"z\u3000z\"\n]\n" ∧
    ∃ place, (Json.list (Json.string "a string")).at
      (.start (Utf8.encode (renderCatalog awkward true))) =
        (.ok awkward.names, ⟨place, Utf8.encode "\n"⟩) := by
  obtain ⟨hlines, hjson⟩ := printed_read_back awkward
  obtain ⟨hread, merged, hmerged, -, hmem⟩ :=
    hlines (by decide +kernel) awkwardHost "/names" rfl
  exact ⟨hread, ⟨merged, hmerged, (hmem _).mpr (.inr (by decide +kernel))⟩, by decide +kernel,
    (hjson "a string").1⟩

end Confinement.Catalog
