import Confinement.SharedObject.Strings

/-!
# Dynamic tables

The dynamic table of an image is a list of tags with values.  It tells the
linker what the object needs and where its symbols, strings and relocations
lie.  Where a tag occurs more than once the last value counts; only the tag of
a needed object is meant to be repeated.

Values that are addresses are turned into places of the image.  How many
symbols there are is not told: it is read off a hash table, and off the
largest symbol that a relocation uses.
-/

namespace Confinement.SharedObject

/-- The dynamic table of an image with its segments. -/
structure Dynamic where
  entries : List (Nat × Nat)
  segments : List Segment

namespace Dynamic

/-! ## Tags -/

def endTag : Nat := 0
def neededTag : Nat := 1
def pltSizeTag : Nat := 2
def hashTag : Nat := 4
def stringsTag : Nat := 5
def symbolsTag : Nat := 6
def addendsTag : Nat := 7
def addendsSizeTag : Nat := 8
def stringsSizeTag : Nat := 10
def nameTag : Nat := 14
def plainTag : Nat := 17
def plainSizeTag : Nat := 18
def pltKindTag : Nat := 20
def pltTag : Nat := 23
def fastHashTag : Nat := 0x6FFFFEF5

/-! ## Values -/

/-- The last value of a tag. -/
def value? (d : Dynamic) (tag : Nat) : Option Nat := (d.entries.findRev? (·.1 = tag)).map (·.2)

/-- The last value of a tag, 0 if there is none. -/
def value (d : Dynamic) (tag : Nat) : Nat := (d.value? tag).getD 0

/-- The place in the image of the address under a tag. -/
def place? (d : Dynamic) (tag : Nat) : Option Nat := (d.value? tag).bind (placeOf? d.segments)

/-- The place in the image of the address under a tag, 0 if there is none. -/
def place (d : Dynamic) (tag : Nat) : Nat := (d.place? tag).getD 0

/-- The names of the needed objects, in link order.  A value that names no
string is passed over. -/
def needed (d : Dynamic) (strings : Strings) : List String :=
  d.entries.filterMap fun (tag, value) => if tag = neededTag then strings.text? value else none

end Dynamic

namespace Image

/-- At most `count` entries of a dynamic table, up to the one that ends it. -/
def dynamicEntries (image : Image) : (count place : Nat) → List (Nat × Nat)
  | 0, _ => []
  | count + 1, place =>
    let tag := image.numberAt place image.wordSize
    let value := image.numberAt (place + image.wordSize) image.wordSize
    if tag = Dynamic.endTag then [(tag, value)]
    else (tag, value) :: image.dynamicEntries count (place + 2 * image.wordSize)

/-- The dynamic table, in the first segment that claims to hold one. -/
def dynamic? (image : Image) (segments : List Segment) : Except Fault (Option Dynamic) :=
  match segments.find? (·.kind = Segment.dynamicKind) with
  | none => .ok none
  | some s =>
    let entries := image.dynamicEntries (s.size / (2 * image.wordSize)) s.place
    if s.size = 0 then .ok (some ⟨[], segments⟩)
    else
      match image.holds s.place s.size with
      | .ok () => .ok (some ⟨entries, segments⟩)
      | .error _ => .error (.dynamicOutside s.place s.size)

/-- The strings the dynamic table refers to. -/
def dynamicStrings (image : Image) (d : Dynamic) : Except Fault Strings :=
  image.strings (d.place Dynamic.stringsTag) (d.value Dynamic.stringsSizeTag)

/-! ## Relocations -/

/-- A place in memory that the linker fills in. -/
structure Relocation where
  address : Nat
  kind : Nat
  symbol : Nat
  addend : Nat

/-- The relocations in a stretch of the image, with or without addends. -/
def relocations (image : Image) (place size : Nat) (addends : Bool) :
    Except Fault (List Relocation) :=
  if size = 0 then .ok []
  else do
    image.holds place size
    let word := image.wordSize
    let entrySize := if addends then 3 * word else 2 * word
    let split := if image.wide then 1 <<< 32 else 1 <<< 8
    return (List.range (size / entrySize)).map fun i =>
      let start := place + i * entrySize
      let info := image.numberAt (start + word) word
      { address := image.numberAt start word
        kind := info % split
        symbol := info / split
        addend := if addends then image.numberAt (start + 2 * word) word else 0 }

/-- All relocations of the dynamic table, those of the procedure linkage table
last. -/
def dynamicRelocations (image : Image) (d : Dynamic) : Except Fault (List Relocation) := do
  let withAddends ←
    image.relocations (d.place Dynamic.addendsTag) (d.value Dynamic.addendsSizeTag) true
  let plain ← image.relocations (d.place Dynamic.plainTag) (d.value Dynamic.plainSizeTag) false
  let linkage ← image.relocations (d.place Dynamic.pltTag) (d.value Dynamic.pltSizeTag)
    (d.value Dynamic.pltKindTag = Dynamic.addendsTag)
  return withAddends ++ plain ++ linkage

/-! ## The number of symbols -/

/-- The largest of `count` numbers of 4 bytes in a row, or `largest`. -/
def largestOf (image : Image) (place : Nat) (largest : Nat) : (count : Nat) → Except Fault Nat
  | 0 => .ok largest
  | count + 1 => do
    image.holds place 4
    image.largestOf (place + 4) (max largest (image.numberAt place 4)) count

/-- The symbol that ends the chain on which `symbol` stands: its hash, at
`place`, is odd. -/
def chainEnd (image : Image) (place symbol : Nat) : Except Fault Nat :=
  if image.size < place + 4 then (image.holds place 4).map fun _ => symbol
  else if image.numberAt place 4 % 2 = 1 then .ok symbol
  else image.chainEnd (place + 4) (symbol + 1)
termination_by image.size - place

/-- The number of symbols a fast hash table knows: one more than the symbol
that ends the last chain. -/
def fastHashCount (image : Image) (place : Nat) : Except Fault Nat := do
  let [buckets, first, filter] ← Reading.startingAt place (Reading.times 3 (image.number 4))
    | return 0
  if buckets = 0 ∨ first = 0 ∨ filter = 0 then throw (.emptyHash buckets first filter)
  else
    let bucketsAt := place + 16 + filter * image.wordSize
    let last ← image.largestOf bucketsAt 0 buckets
    if last < first then return 0
    else
      let chainsAt := bucketsAt + buckets * 4
      return (← image.chainEnd (chainsAt + (last - first) * 4) last) + 1

/-- The machines whose hash tables are made of words. -/
def wordHashMachines : List Nat := [22, 0x9026]

/-- The number of symbols a plain hash table knows. -/
def hashCount (image : Image) (machine place : Nat) : Except Fault Nat :=
  let size := if image.wide && wordHashMachines.contains machine then 8 else 4
  Reading.startingAt (min (place + 4) (wordLimit - 1)) (image.number size)

/-- The number of symbols of the dynamic table. -/
def symbolCount (image : Image) (machine : Nat) (d : Dynamic) (relocations : List Relocation) :
    Except Fault Nat := do
  let known ←
    match d.place? Dynamic.fastHashTag, d.place? Dynamic.hashTag with
    | some place, _ => image.fastHashCount place
    | none, some place => image.hashCount machine place
    | none, none => pure 0
  let used := relocations.foldl (fun n r => max n r.symbol) 0
  return if used = 0 then known else max known (used + 1)

/-- The number of bytes of a symbol. -/
def symbolSize (image : Image) : Nat := if image.wide then 24 else 16

/-- A table of `count` symbols must lie inside the image. -/
def holdsSymbols (image : Image) (place count : Nat) : Except Fault Unit :=
  if wordLimit ≤ count * image.symbolSize then .error (.tooManySymbols place count)
  else if count = 0 then .ok ()
  else image.holds place (count * image.symbolSize)

end Image

end Confinement.SharedObject
