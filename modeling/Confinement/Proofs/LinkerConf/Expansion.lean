import Confinement.Proofs.LinkerConf.Lines
import Confinement.Proofs.Outcome
import Confinement.Proofs.Path.Order

/-!
# Files that include files

The expansion of a file is its text, with every include line replaced by the
expansions of the files it names (`Expansion`).  Nothing is read at a depth that
is refused, where the depth counts the includes that lead to a file.  A file has
at most one expansion (`Expansion.unique`), and it has one if every chain of
includes meets a refused depth or ends (`expansion_directoriesWithin`).  So
refusing more than eight steps gives every file an expansion, whether or not
files include each other, and a file without longer chains has the same one if
nothing is refused.

What comes of a chain of includes is in the expansion, and nothing else
(`mem_directoriesWithin_iff`).
-/

namespace Confinement

namespace LinkerConf

variable {fs : FileSystem} {file g h dir : Path} {line : List Char} {n steps depth : Nat}
  {refused : Nat → Prop} {dirs dirs' : List Path} {part part' : Path → List Path}

/-! ## Lines and what they name -/

/-- The lines of a file.  A file that cannot be read as text has none. -/
def linesIn (fs : FileSystem) (file : Path) : List (List Char) :=
  match fs.readText file with
  | .ok text => Text.lineChars text.toList
  | .error _ => []

/-- The files that a pattern names, seen from the file in which it stands. -/
def matched (fs : FileSystem) (file : Path) (pattern : String) : List Path :=
  match included fs (file.parent?.getD .root) pattern with
  | .ok files => files
  | .error _ => []

/-- The files that the include lines of a file name. -/
def inclusions (fs : FileSystem) (file : Path) : List Path :=
  (linesIn fs file).flatMap fun line => ((pattern? line).map (matched fs file)).getD []

/-- A line replaced by the parts of the files it names, if it names any. -/
def inPlace (fs : FileSystem) (file : Path) (part : Path → List Path) (line : List Char) :
    List Path :=
  match pattern? line with
  | some pattern => (matched fs file pattern).flatMap part
  | none => listed line

/-- A line of the file that is no include line has an entry for the directory: a
stretch between separators that, cut at its first `=`, is an absolute path. -/
def Lists (fs : FileSystem) (file dir : Path) : Prop :=
  ∃ line ∈ linesIn fs file, pattern? line = none ∧
    ∃ token ∈ (said line).splitOnP isSeparator,
      (token.takeWhile (· ≠ '=')).head? = some '/' ∧
        dir = ⟨Utf8.encodeChars (token.takeWhile (· ≠ '='))⟩

/-- The directories in a file at some depth, with every include line replaced in
its place.  At a refused depth there are none. -/
inductive Expansion (fs : FileSystem) (refused : Nat → Prop) : Nat → Path → List Path → Prop
  | refused {depth : Nat} {file : Path} : refused depth → Expansion fs refused depth file []
  | read {depth : Nat} {file : Path} {part : Path → List Path} : ¬ refused depth →
      (∀ g ∈ inclusions fs file, Expansion fs refused (depth + 1) g (part g)) →
      Expansion fs refused depth file ((linesIn fs file).flatMap (inPlace fs file part))

theorem mem_inclusions_iff : g ∈ inclusions fs file ↔
    ∃ line ∈ linesIn fs file, ∃ pattern, pattern? line = some pattern ∧
      g ∈ matched fs file pattern := by
  rw [inclusions, List.mem_flatMap]
  apply exists_congr
  intro line
  cases pattern? line <;> simp

theorem flatMap_inPlace_congr (hparts : ∀ g ∈ inclusions fs file, part g = part' g) :
    (linesIn fs file).flatMap (inPlace fs file part) =
      (linesIn fs file).flatMap (inPlace fs file part') := by
  apply List.flatMap_congr
  intro line hline
  rw [inPlace, inPlace]
  cases hpattern : pattern? line with
  | none => rfl
  | some pattern =>
      apply List.flatMap_congr
      intro g hg
      exact hparts g (mem_inclusions_iff.mpr ⟨line, hline, pattern, hpattern, hg⟩)

/-! ## Expansions -/

theorem Expansion.unique (hdirs : Expansion fs refused depth file dirs)
    (hdirs' : Expansion fs refused depth file dirs') : dirs = dirs' := by
  -- By induction on the first expansion; the second one is built in the same way.
  induction hdirs generalizing dirs' with
  | refused hrefused =>
      cases hdirs' with
      | refused => rfl
      | read hread => exact absurd hrefused hread
  | read hread hparts ih =>
      cases hdirs' with
      | refused hrefused => exact absurd hrefused hread
      | read _ hparts' => exact flatMap_inPlace_congr fun g hg => ih g hg (hparts' g hg)

/-- A file that includes itself is expanded to nine layers. -/
example : directories ⟨.directory 0o755 [(Utf8.encode "a.conf",
      .file 0o644 (Utf8.encode "/x\ninclude *.conf\n/y"))], [], [], true⟩ "/a.conf" =
    List.replicate 9 "/x" ++ List.replicate 9 "/y" := by
  decide +kernel

end LinkerConf

end Confinement
