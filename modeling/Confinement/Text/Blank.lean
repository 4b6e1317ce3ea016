/-!
# Blanks, lines and words

Blank characters are those with the Unicode property White_Space.  The ASCII
ones are the four of `Char.isWhitespace`, the line tabulation and the form feed.

A line ends with a line feed, before which one carriage return belongs to the
line end; the last line needs no line end.
-/

namespace Confinement.Text

/-- The property White_Space of Unicode. -/
def isBlank (c : Char) : Bool :=
  let n := c.toNat
  (9 ≤ n && n ≤ 13) || n == 0x20 || n == 0x85 || n == 0xA0 || n == 0x1680 ||
    (0x2000 ≤ n && n ≤ 0x200A) || n == 0x2028 || n == 0x2029 || n == 0x202F ||
    n == 0x205F || n == 0x3000

/-- A list of characters without the blanks at its two ends. -/
def trimChars (cs : List Char) : List Char :=
  ((cs.dropWhile isBlank).reverse.dropWhile isBlank).reverse

/-- A text without the blanks at its two ends. -/
def trim (s : String) : String := String.ofList (trimChars s.toList)

/-- A line without the carriage return of its line end. -/
def dropReturn (cs : List Char) : List Char :=
  if cs.getLast? = some '\r' then cs.dropLast else cs

/-- The lines among the stretches between line feeds: all but the last stretch
ended with a line feed, and an empty last stretch is no line. -/
def linesOf : List (List Char) → List (List Char)
  | [] => []
  | [last] => if last.isEmpty then [] else [last]
  | l :: ls => dropReturn l :: linesOf ls

/-- The lines of a text. -/
def lineChars (cs : List Char) : List (List Char) := linesOf (cs.splitOn '\n')

/-- The lines of a text. -/
def lines (s : String) : List String := (lineChars s.toList).map String.ofList

/-- The stretches of a text between blanks, empty ones left out. -/
def words (s : String) : List String :=
  ((s.toList.splitOnP isBlank).filter (!·.isEmpty)).map String.ofList

/-- The stretches of a text between two occurrences of a character. -/
def fields (sep : Char) (s : String) : List String :=
  (s.toList.splitOn sep).map String.ofList

/-- The part of a text before the first occurrence of a character. -/
def before (sep : Char) (s : String) : String :=
  String.ofList (s.toList.takeWhile (· != sep))

end Confinement.Text
