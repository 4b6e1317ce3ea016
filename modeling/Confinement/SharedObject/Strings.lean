import Confinement.SharedObject.Headers

/-!
# String tables

A string table is a stretch of an image cut at its NUL bytes.  A string is
named by the place where it begins, counted from the start of the table; a
place inside a string names the rest of it.
-/

namespace Confinement.SharedObject

/-- The strings of a table with the places where they begin, in order. -/
abbrev Strings := List (Nat × Bytes)

namespace Strings

/-- The table in a stretch of bytes that begins at `place`. -/
def cut (place : Nat) (stretch : Bytes) : Except Fault Strings :=
  if stretch = [] then .ok []
  else
    let text := stretch.takeWhile (· ≠ 0)
    if (Utf8.decode? text).isNone then .error (.notText stretch.length)
    else do
      let rest ← cut (place + text.length + 1) (stretch.drop (text.length + 1))
      return (place, text) :: rest
termination_by stretch.length
decreasing_by
  have : 0 < stretch.length := List.length_pos_iff.2 ‹_›
  simp only [List.length_drop]
  omega

/-- The string a place names.  The place where a string ends names the empty
string; a place inside a character names nothing. -/
def text? (strings : Strings) (place : Nat) : Option String :=
  match strings.findRev? (·.1 ≤ place) with
  | some (start, text) =>
    if place - start ≤ text.length then Utf8.decode? (text.drop (place - start)) else none
  | none => none

end Strings

namespace Image

/-- The bytes of a stretch of the image. -/
def stretch (image : Image) (place size : Nat) : Bytes :=
  (image.bytes.extract place (place + size)).toList

/-- The string table in a stretch of the image. -/
def strings (image : Image) (place size : Nat) : Except Fault Strings :=
  if wordLimit ≤ place + size then .error (.stringsOutside size place image.size true)
  else if image.size < place + size then .error (.stringsOutside size place image.size false)
  else Strings.cut 0 (image.stretch place size)

/-- The index that stands for one kept in the first section header. -/
def extendedIndex : Nat := 0xFFFF

/-- The string table in the section with an index, empty if there is none. -/
def stringsOf (image : Image) (sections : List Section) (index : Nat) : Except Fault Strings :=
  let index? :=
    if index = extendedIndex then sections.head?.map (·.link) else some index
  match index?.bind (sections[·]?) with
  | none => .ok []
  | some s => do
    s.checkExtent image
    image.strings s.place s.size

end Image

end Confinement.SharedObject
