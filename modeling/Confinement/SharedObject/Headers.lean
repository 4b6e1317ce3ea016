import Confinement.SharedObject.Image

/-!
# Headers of shared objects

The first 16 bytes of an image tell its class and its byte order.  The header
goes on with the places of two tables.  One lists the segments, which say what
part of the image goes where in memory; the other lists the sections, which
say what the parts of the image are for.
-/

namespace Confinement.SharedObject

/-- What the header of an image tells. -/
structure Header where
  kind : Nat
  machine : Nat
  version : Nat
  segmentsAt : Nat
  sectionsAt : Nat
  segmentSize : Nat
  segmentCount : Nat
  sectionCount : Nat
  namesIndex : Nat

/-- A part of an image that goes to memory, or tells how. -/
structure Segment where
  kind : Nat
  flags : Nat
  place : Nat
  address : Nat
  size : Nat
  memorySize : Nat
  alignment : Nat

namespace Segment

/-- The kind of a segment that goes to memory. -/
def loadKind : Nat := 1

/-- The kind of the segment that holds the dynamic table. -/
def dynamicKind : Nat := 2

/-- The number of bytes in the header of a segment. -/
def headerSize (image : Image) : Nat := if image.wide then 56 else 32

end Segment

/-- A part of an image with a purpose of its own. -/
structure Section where
  name : Nat
  kind : Nat
  address : Nat
  place : Nat
  size : Nat
  link : Nat
  entrySize : Nat

namespace Section

/-- The number of bytes in the header of a section. -/
def headerSize (image : Image) : Nat := if image.wide then 64 else 40

def symbolsKind : Nat := 2
def relocationsWithAddendsKind : Nat := 4
def emptyKind : Nat := 8
def relocationsKind : Nat := 9
def versionDefinitionsKind : Nat := 0x6FFFFFFD
def versionNeedsKind : Nat := 0x6FFFFFFE
def versionsKind : Nat := 0x6FFFFFFF

/-- A section must lie inside the image, and its addresses must not wrap. -/
def checkExtent (s : Section) (image : Image) : Except Fault Unit :=
  if s.kind = emptyKind ∨ s.size = 0 then .ok ()
  else if wordLimit ≤ s.place + s.size then .error (.sectionOutside s.name s.place s.size true)
  else if image.size < s.place + s.size then .error (.sectionOutside s.name s.place s.size false)
  else if wordLimit ≤ s.address + s.size then .error (.sectionWraps s.name s.address s.size)
  else .ok ()

end Section

namespace Image

/-- The number of bytes that identify an image. -/
def identitySize : Nat := 16

/-- The bytes every image begins with. -/
def magic : List UInt8 := [0x7F, 0x45, 0x4C, 0x46]

/-- An image with the class and the byte order its first bytes tell. -/
def identify (bytes : ByteArray) : Except Fault Image := do
  let image : Image := { bytes }
  if image.size < identitySize then .error .tooSmall
  else if (List.range 4).map image.byteAt ≠ magic.map (·.toNat) then
    .error (.magic (image.numberAt 0 8))
  else
    let classCode := image.byteAt 4
    let orderCode := image.byteAt 5
    if classCode ≠ 1 ∧ classCode ≠ 2 then .error (.unknownClass classCode)
    else if orderCode ≠ 1 ∧ orderCode ≠ 2 then .error (.unknownByteOrder orderCode)
    else .ok { bytes, wide := classCode = 2, littleEndian := orderCode = 1 }

/-- The header, which follows the identity. -/
def header (image : Image) : Except Fault Header := Reading.startingAt identitySize do
  let kind ← image.number 2
  let machine ← image.number 2
  let version ← image.number 4
  let _entry ← image.word
  let segmentsAt ← image.word
  let sectionsAt ← image.word
  let _flags ← image.number 4
  let _size ← image.number 2
  let segmentSize ← image.number 2
  let segmentCount ← image.number 2
  let _sectionSize ← image.number 2
  let sectionCount ← image.number 2
  let namesIndex ← image.number 2
  return { kind, machine, version, segmentsAt, sectionsAt, segmentSize, segmentCount,
           sectionCount, namesIndex }

/-- The header of one segment.  The flags stand second where words are wide,
and else next to last. -/
def segment (image : Image) : Reading Segment := do
  let kind ← image.number 4
  let early ← if image.wide then image.number 4 else pure 0
  let place ← image.word
  let address ← image.word
  let _physical ← image.word
  let size ← image.word
  let memorySize ← image.word
  let late ← if image.wide then pure 0 else image.number 4
  let alignment ← image.word
  return { kind, flags := early + late, place, address, size, memorySize, alignment }

/-- The headers of all segments. -/
def segments (image : Image) (h : Header) : Except Fault (List Segment) :=
  if image.size / Segment.headerSize image < h.segmentCount then
    .error (.tooMany h.segmentCount "program headers")
  else Reading.startingAt h.segmentsAt (Reading.times h.segmentCount image.segment)

/-- The header of one section. -/
def «section» (image : Image) : Reading Section := do
  let name ← image.number 4
  let kind ← image.number 4
  let _flags ← image.word
  let address ← image.word
  let place ← image.word
  let size ← image.word
  let link ← image.number 4
  let _info ← image.number 4
  let _alignment ← image.word
  let entrySize ← image.word
  return { name, kind, address, place, size, link, entrySize }

/-- The headers of all sections.  An image without them has 0 for their place.
A count of 0 means that the count stands in the first header. -/
def sections (image : Image) (h : Header) : Except Fault (List Section) :=
  if h.sectionsAt = 0 then .ok []
  else Reading.startingAt h.sectionsAt do
    let first ← image.section
    let count := if h.sectionCount = 0 then first.size else h.sectionCount
    if image.size / Section.headerSize image < count then
      throw (.tooMany count "section headers")
    else return first :: (← Reading.times (count - 1) image.section)

end Image

/-- The place in the image of what lies at an address in memory. -/
def placeOf? (segments : List Segment) (address : Nat) : Option Nat :=
  let covers (s : Segment) : Bool :=
    s.kind = Segment.loadKind && s.address ≤ address && address - s.address < s.memorySize
  match segments.find? covers with
  | some s =>
    let place := s.place + (address - s.address)
    if place < wordLimit then some place else none
  | none => none

end Confinement.SharedObject
