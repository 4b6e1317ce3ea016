import Confinement.SharedObject.Dynamic

/-!
# What a shared object needs

The names of the objects that an object needs stand in its dynamic table.
They are told only of an image that holds together: every table the image
announces is looked at, in a fixed order, and the first fault found is the
answer.
-/

namespace Confinement.SharedObject

namespace Image

/-- The symbols of the last section of symbols and their names. -/
def checkSymbols (image : Image) (sections : List Section) : Except Fault Unit :=
  match sections.findRev? (·.kind = Section.symbolsKind) with
  | none => .ok ()
  | some s => do
    image.holdsSymbols s.place (if s.entrySize = 0 then 0 else s.size / s.entrySize)
    let _ ← image.stringsOf sections s.link

/-- What the dynamic table refers to, and the names it needs. -/
def checkDynamic (image : Image) (h : Header) (d : Dynamic) : Except Fault (List String) := do
  let strings ← image.dynamicStrings d
  let relocations ← image.dynamicRelocations d
  let count ← image.symbolCount h.machine d relocations
  image.holdsSymbols (d.place Dynamic.symbolsTag) count
  return d.needed strings

/-- The relocations of one section. -/
def checkRelocations (image : Image) (s : Section) : Except Fault Unit := do
  let addends := s.kind = Section.relocationsWithAddendsKind
  if addends ∨ s.kind = Section.relocationsKind then
    s.checkExtent image
    let _ ← image.relocations s.place s.size addends

/-- The first section of a kind. -/
def checkFirst (image : Image) (sections : List Section) (kind : Nat) : Except Fault Unit :=
  match sections.find? (·.kind = kind) with
  | none => .ok ()
  | some s => image.holds s.place s.size

end Image

/-- The names of the objects that the object with these bytes needs, in link
order. -/
def neededNames (bytes : Bytes) : Except Fault (List String) := do
  let image ← Image.identify bytes.toByteArray
  let h ← image.header
  let segments ← image.segments h
  let sections ← image.sections h
  let _ ← image.stringsOf sections h.namesIndex
  image.checkSymbols sections
  let names ←
    match ← image.dynamic? segments with
    | some d => image.checkDynamic h d
    | none => pure []
  sections.forM image.checkRelocations
  [Section.versionsKind, Section.versionDefinitionsKind, Section.versionNeedsKind].forM
    (image.checkFirst sections)
  return names

end Confinement.SharedObject
