import Confinement.Text.Quoted

/-!
# Images of shared objects

An image is the content of a shared-object file: numbers of one to eight bytes
in one byte order, at places that other numbers tell.  A word is a number as
wide as an address, 4 or 8 bytes.

A reading starts at a place and moves on over what it read.  It fails when the
place lies beyond the end of the image, and when too few bytes follow; every
other fault of an image is a statement about numbers that were read.
-/

namespace Confinement.SharedObject

/-! ## Faults -/

/-- What is wrong with an image. -/
inductive Fault where
  | beyondEnd (place : Nat)
  | cutShort (size rest : Nat)
  | notText (rest : Nat)
  | tooSmall
  | magic (first : Nat)
  | unknownClass (code : Nat)
  | unknownByteOrder (code : Nat)
  | tooMany (count : Nat) (headers : String)
  | sectionOutside (name place size : Nat) (wraps : Bool)
  | sectionWraps (name address size : Nat)
  | stringsOutside (size place total : Nat) (wraps : Bool)
  | dynamicOutside (place size : Nat)
  | tooManySymbols (place count : Nat)
  | emptyHash (buckets first filter : Nat)
  deriving DecidableEq, Repr

/-- A number in hexadecimal, marked as such. -/
private def hexText (n : Nat) : String := "0x" ++ String.ofList (Text.hexadecimal n)

private def boolText (b : Bool) : String := if b then "true" else "false"

/-- A fault that lies in the numbers of an image, in words. -/
private def malformed (text : String) : String := "Malformed entity: " ++ text

/-- A fault in words. -/
def Fault.message : Fault → String
  | .beyondEnd place => "bad offset " ++ toString place
  | .cutShort size rest =>
    "type is too big (" ++ toString size ++ ") for " ++ toString rest
  | .notText rest => "bad input invalid utf8 (" ++ toString rest ++ ")"
  | .tooSmall => malformed "Too small"
  | .magic first => "Invalid magic number: " ++ hexText first
  | .unknownClass code =>
    malformed ("invalid ELF class " ++ String.ofList (Text.hexadecimal code))
  | .unknownByteOrder code =>
    malformed ("invalid ELF endianness DATA type " ++ String.ofList (Text.hexadecimal code))
  | .tooMany count headers =>
    "Buffer is too short for " ++ toString count ++ " " ++ headers
  | .sectionOutside name place size wraps =>
    malformed ("Section " ++ toString name ++ " size (" ++ toString place ++ ") + offset (" ++
      toString size ++ ") is out of bounds. Overflowed: " ++ boolText wraps)
  | .sectionWraps name address size =>
    malformed ("Section " ++ toString name ++ " size (" ++ toString address ++ ") + addr (" ++
      toString size ++ ") is out of bounds. Overflowed: true")
  | .stringsOutside size place total wraps =>
    malformed ("Strtable size (" ++ toString size ++ ") + offset (" ++ toString place ++
      ") is out of bounds for " ++ toString total ++ " #bytes. Overflowed: " ++ boolText wraps)
  | .dynamicOutside place size =>
    malformed ("Invalid PT_DYNAMIC size (offset " ++ hexText place ++ ", filesz " ++
      hexText size ++ ")")
  | .tooManySymbols place count =>
    malformed ("Too many ELF symbols (offset " ++ hexText place ++ ", count " ++
      toString count ++ ")")
  | .emptyHash buckets first filter =>
    malformed ("Invalid DT_GNU_HASH: buckets_num=" ++ toString buckets ++ " min_chain=" ++
      toString first ++ " bloom_size=" ++ toString filter)

/-! ## Readings -/

/-- The numbers below this one fit a word of 8 bytes. -/
def wordLimit : Nat := 1 <<< 64

/-- The content of a shared-object file, with the width of its words and the
order of the bytes in its numbers. -/
structure Image where
  bytes : ByteArray
  wide : Bool := true
  littleEndian : Bool := true

/-- A reading at a place that moves on. -/
abbrev Reading := StateT Nat (Except Fault)

namespace Reading

/-- What a reading finds at a place. -/
def startingAt (place : Nat) (r : Reading α) : Except Fault α := (r.run place).map (·.1)

/-- The same reading several times in a row. -/
def times (count : Nat) (r : Reading α) : Reading (List α) :=
  (List.replicate count ()).mapM fun _ => r

end Reading

namespace Image

/-- The number of bytes. -/
def size (image : Image) : Nat := image.bytes.size

/-- The byte at a place; none lies beyond the end. -/
def byteAt (image : Image) (place : Nat) : Nat :=
  if h : place < image.bytes.size then image.bytes[place].toNat else 0

/-- The number of `size` bytes at a place. -/
def numberAt (image : Image) (place size : Nat) : Nat :=
  let bytes := (List.range size).map fun i => image.byteAt (place + i)
  (if image.littleEndian then bytes.reverse else bytes).foldl (fun n b => n * 256 + b) 0

/-- Whether `size` bytes lie at a place. -/
def holds (image : Image) (place size : Nat) : Except Fault Unit :=
  if image.size < place then .error (.beyondEnd place)
  else if image.size - place < size then .error (.cutShort size (image.size - place))
  else .ok ()

/-- A number of `size` bytes. -/
def number (image : Image) (size : Nat) : Reading Nat := fun place => do
  image.holds place size
  return (image.numberAt place size, place + size)

/-- The number of bytes in a word. -/
def wordSize (image : Image) : Nat := if image.wide then 8 else 4

/-- A word. -/
def word (image : Image) : Reading Nat := image.number image.wordSize

end Image

end Confinement.SharedObject
