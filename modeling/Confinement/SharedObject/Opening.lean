import Confinement.Dependencies
import Confinement.SharedObject.LinkMap

/-!
# Opening shared objects

An object is opened by its path or by its name.  A name without a slash is
the name of an object that is mapped already, or of a library of the system.
A path is the path of a file, which is checked, mapped, and joined by all that
it needs.  Then the linker fills in the places that refer to symbols: first
the global scope is asked, then the scope of the object that is being opened.

Opening happens as a whole or not at all.
-/

namespace Confinement.SharedObject

/-! ## Faults -/

/-- What is wrong with an object that is to be opened. -/
inductive OpenProblem where
  | unopened (e : Errno)
  | unread (e : Errno)
  | unreadable
  | tooShort
  | badMagic
  | otherClass
  | otherByteOrder
  | otherVersion
  | otherSystem
  | otherSystemVersion
  | padded
  | otherFileVersion
  | otherKind
  | otherHeaderSize
  | notPaged
  | notAligned
  | noSegments
  | executable
  | noDynamic
  | unmapped
  | undefinedSymbol (symbol : Bytes)
  deriving DecidableEq, Repr

/-- A problem in words. -/
def OpenProblem.message : OpenProblem → String
  | .unopened e => "cannot open shared object file: " ++ e.text
  | .unread e => "cannot read file data: " ++ e.text
  | .unreadable => "cannot read file data"
  | .tooShort => "file too short"
  | .badMagic => "invalid ELF header"
  | .otherClass => "wrong ELF class: ELFCLASS32"
  | .otherByteOrder => "ELF file data encoding not little-endian"
  | .otherVersion => "ELF file version ident does not match current one"
  | .otherSystem => "ELF file OS ABI invalid"
  | .otherSystemVersion => "ELF file ABI version invalid"
  | .padded => "nonzero padding in e_ident"
  | .otherFileVersion => "ELF file version does not match current one"
  | .otherKind => "only ET_DYN and ET_EXEC can be loaded"
  | .otherHeaderSize => "ELF file's phentsize not the expected size"
  | .notPaged => "ELF load command alignment not page-aligned"
  | .notAligned => "ELF load command address/offset not properly aligned"
  | .noSegments => "object file has no loadable segments"
  | .executable => "cannot dynamically load executable"
  | .noDynamic => "object file has no dynamic section"
  | .unmapped => "failed to map segment from shared object"
  | .undefinedSymbol symbol => "undefined symbol: " ++ Utf8.lossy symbol

/-- Why an object cannot be opened, or a symbol not be found. -/
inductive LinkFault where
  | unspeakable (endsInNul : Bool)
  | of (object : Bytes) (problem : OpenProblem)
  deriving DecidableEq, Repr

/-- A fault in words. -/
def LinkFault.message : LinkFault → String
  | .unspeakable false => "could not create a C string from bytes"
  | .unspeakable true => "could not create a C string from bytes with trailing null"
  | .of object problem => Utf8.lossy object ++ ": " ++ problem.message

/-- A name as it is passed to the linker.  A NUL byte may end it, but not
stand inside. -/
def linkerName (name : Bytes) : Except LinkFault Bytes :=
  let endsInNul := name.getLast? = some 0
  let text := if endsInNul then name.dropLast else name
  if text.contains 0 then .error (.unspeakable endsInNul) else .ok text

/-! ## Checking a file -/

/-- An image that fits this system, with its header and its segments. -/
structure Fitting where
  image : Image
  header : Header
  segments : List Segment
  dynamic : Dynamic

/-- The number of bytes in the header of an image. -/
def fileHeaderSize : Nat := 64

/-- The machine whose instructions are understood. -/
def hostMachine : Nat := 62

/-- The kinds of images that can be mapped: executables and shared objects. -/
def executableKind : Nat := 2
def sharedKind : Nat := 3

/-- The alignment of mapped segments. -/
def pageSize : Nat := 0x1000

/-- The identity of an image must be that of this system. -/
def checkIdentity (image : Image) : Except OpenProblem Unit :=
  let byte := image.byteAt
  if (List.range 4).map byte ≠ Image.magic.map (·.toNat) then .error .badMagic
  else if byte 4 ≠ 2 then .error .otherClass
  else if byte 5 ≠ 1 then .error .otherByteOrder
  else if byte 6 ≠ 1 then .error .otherVersion
  else if byte 7 ≠ 0 ∧ byte 7 ≠ 3 then .error .otherSystem
  else if byte 8 ≠ 0 then .error .otherSystemVersion
  else if (List.range 7).any fun i => byte (9 + i) ≠ 0 then .error .padded
  else .ok ()

/-- The header of an image must describe an object for this machine. -/
def checkHeader (h : Header) : Except OpenProblem Unit :=
  if h.version ≠ 1 then .error .otherFileVersion
  else if h.machine ≠ hostMachine then .error (.unopened .noEntry)
  else if h.kind ≠ executableKind ∧ h.kind ≠ sharedKind then .error .otherKind
  else if h.segmentSize ≠ 56 then .error .otherHeaderSize
  else .ok ()

/-- A segment that goes to memory must lie in the file as it lies in memory. -/
def checkSegment (s : Segment) : Except OpenProblem Unit :=
  if s.kind ≠ Segment.loadKind then .ok ()
  else if s.alignment % pageSize ≠ 0 then .error .notPaged
  else if ((s.address : Int) - s.place) % max s.alignment 1 ≠ 0 then .error .notAligned
  else .ok ()

/-- An image checked. -/
def fitting (bytes : Bytes) : Except OpenProblem Fitting := do
  let image : Image := { bytes := bytes.toByteArray }
  if image.size < fileHeaderSize then throw .tooShort
  checkIdentity image
  let header ← image.header.mapError fun _ => .unreadable
  checkHeader header
  let segments ← (image.segments header).mapError fun _ => .unreadable
  segments.forM checkSegment
  let loaded := segments.filter (·.kind = Segment.loadKind)
  if loaded = [] then throw .noSegments
  if header.kind = executableKind then throw .executable
  if loaded.any fun s => LinkMap.spacing ≤ s.address + s.memorySize then throw .unmapped
  match image.dynamic? segments with
  | .ok (some dynamic) =>
    if dynamic.entries.isEmpty then throw .noDynamic
    else return { image, header, segments, dynamic }
  | .ok none => throw .noDynamic
  | .error _ => throw .unmapped

namespace Fitting

/-- The string at a place in the table of strings. -/
def string (f : Fitting) (place : Nat) : Bytes :=
  let start := f.dynamic.place Dynamic.stringsTag + place
  (f.image.stretch start (f.image.size - start)).takeWhile (· ≠ 0)

/-- The names the object needs. -/
def needed (f : Fitting) : List Bytes :=
  (f.dynamic.entries.filter (·.1 = Dynamic.neededTag)).map fun (_, place) => f.string place

/-- The name the object gives itself. -/
def ownName (f : Fitting) : Option Bytes := (f.dynamic.value? Dynamic.nameTag).map f.string

/-- A symbol of the object. -/
structure Symbol where
  name : Bytes
  binding : Nat
  defined : Bool
  value : Nat

/-- Bindings of symbols that others may use. -/
def sharedBindings : List Nat := [1, 2, 10]

/-- The binding of a symbol that may stay undefined. -/
def weakBinding : Nat := 2

/-- The symbol with an index. -/
def symbol (f : Fitting) (index : Nat) : Symbol :=
  let start := f.dynamic.place Dynamic.symbolsTag + index * f.image.symbolSize
  let value := f.image.numberAt (start + 8) 8
  { name := f.string (f.image.numberAt start 4)
    binding := f.image.byteAt (start + 4) / 16
    defined := f.image.numberAt (start + 6) 2 ≠ 0 ∧ value ≠ 0
    value }

/-- The symbols the object defines for others, at its place in memory. -/
def definitions (f : Fitting) (base : Nat) : List Definition :=
  let count := ((f.image.symbolCount f.header.machine f.dynamic []).toOption.getD 0)
  let symbols := (List.range (min count (f.image.size / f.image.symbolSize))).map f.symbol
  (symbols.filter fun s => s.defined && sharedBindings.contains s.binding).map fun s =>
    ⟨s.name, base + s.value⟩

/-- The regions of the object, at its place in memory. -/
def regions (f : Fitting) (base : Nat) : List Region :=
  (f.segments.filter (·.kind = Segment.loadKind)).map fun s =>
    { start := base + s.address
      size := s.memorySize
      content := f.image.bytes.extract s.place (s.place + s.size)
      writable := s.flags &&& 2 != 0 }

end Fitting

/-! ## Mapping -/

namespace LinkMap

/-- What was mapped for one opening, in order, with what is left to look at. -/
structure Mapping where
  map : LinkMap
  fresh : List (Nat × Fitting) := []

/-- The object that goes by a name: mapped already, or mapped now. -/
def acquire (fs : FileSystem) (name : Bytes) (m : Mapping) : Except LinkFault (Nat × Mapping) :=
  match m.map.objects.find? (·.isCalled name) with
  | some o => .ok (o.number, m)
  | none =>
    if name.contains Path.slash then
      match fs.find true ⟨name⟩ with
      | .error (.system e) => .error (.of name (.unopened e))
      | .error _ => .error (.of name (.unopened .noEntry))
      | .ok (location, _) =>
        match m.map.objects.find? (·.file = some location) with
        | some o => .ok (o.number, m)
        | none =>
          match fs.readBytes ⟨name⟩ with
          | .error (.system e) =>
            .error (.of name (if e = .isDirectory then .unread e else .unopened e))
          | .error _ => .error (.of name .unreadable)
          | .ok bytes =>
            match fitting bytes with
            | .error problem => .error (.of name problem)
            | .ok f =>
              let number := m.map.nextObject
              let mapped : Mapped := {
                number
                name
                file := some location
                ownName := f.ownName
                definitions := f.definitions (baseOf number)
                regions := f.regions (baseOf number) }
              .ok (number, {
                map := { m.map with
                  objects := m.map.objects ++ [mapped], nextObject := number + 1 }
                fresh := m.fresh ++ [(number, f)] })
    else
      match m.map.system.find? (·.name = name) with
      | some library =>
        let (number, map) := m.map.mapSystem library
        .ok (number, { m with map })
      | none => .error (.of name (.unopened .noEntry))

/-- The objects that one object needs, acquired in order. -/
def acquireAll (fs : FileSystem) : List Bytes → Mapping → Except LinkFault (List Nat × Mapping)
  | [], m => .ok ([], m)
  | name :: names, m => do
    let (number, m) ← acquire fs name m
    let (numbers, m) ← acquireAll fs names m
    return (number :: numbers, m)

/-- The objects mapped from the `done`-th on, joined by all they need.  Every
object comes from a file of its own, so `fuel` need not exceed the number of
files. -/
def complete (fs : FileSystem) : (fuel done : Nat) → Mapping → Except LinkFault Mapping
  | 0, _, m => .ok m
  | fuel + 1, done, m =>
    match m.fresh[done]? with
    | none => .ok m
    | some (number, f) => do
      let (dependencies, m) ← acquireAll fs f.needed m
      complete fs fuel (done + 1)
        { m with map := m.map.update number fun o => { o with dependencies } }

/-! ## Relocation -/

/-- The kinds of places the linker fills in. -/
def sumRelocation : Nat := 1
def dataRelocation : Nat := 6
def callRelocation : Nat := 7
def baseRelocation : Nat := 8

/-- One place of an object filled in. -/
def relocate (scope : List Mapped) (object : Mapped) (f : Fitting) (m : LinkMap)
    (r : Image.Relocation) : Except LinkFault LinkMap :=
  let base := baseOf object.number
  let put (n : Nat) : LinkMap :=
    { m with written := m.written.patchWord (base + r.address) (n % wordLimit) }
  if r.kind = baseRelocation then .ok (put (base + r.addend))
  else if r.kind = sumRelocation ∨ r.kind = dataRelocation ∨ r.kind = callRelocation then
    let symbol := f.symbol r.symbol
    let addend := if r.kind = sumRelocation then r.addend else 0
    match lookup scope symbol.name with
    | some (provider, address) =>
      let m := put (address + addend)
      .ok (m.update object.number fun o =>
        { o with providers := o.providers ++ [provider.number] })
    | none =>
      if symbol.binding = Fitting.weakBinding then .ok (put addend)
      else .error (.of object.name (.undefinedSymbol symbol.name))
  else .ok m

/-- All places of an object filled in. -/
def relocateAll (scope : List Mapped) (m : LinkMap) (number : Nat) (f : Fitting) :
    Except LinkFault LinkMap :=
  match m.object? number with
  | none => .ok m
  | some object =>
    match f.image.dynamicRelocations f.dynamic with
    | .error _ => .ok m
    | .ok relocations => relocations.foldlM (relocate scope object f) m

/-! ## Opening -/

/-- An object opened, for all or for itself, and the number of the opening. -/
def «open» (m : LinkMap) (fs : FileSystem) (name : Bytes) (forAll : Bool) :
    Except LinkFault (Nat × LinkMap) := do
  let (number, mapping) ← acquire fs name { map := m }
  let fuel := fs.tree.nameCount + 1
  let mapping ← complete fs fuel 0 mapping
  let own := mapping.map.scope number
  let scope := mapping.map.globalScope ++ own
  -- What was mapped last is filled in first, so that what is needed is ready.
  let linked ← mapping.fresh.reverse.foldlM
    (fun m (number, f) => relocateAll scope m number f) mapping.map
  let shared :=
    if forAll then own.foldl (fun m o => m.update o.number ({ · with global := true })) linked
    else linked
  return shared.hold number

/-- Whether an object that goes by a name, or comes from the file it names, is
mapped. -/
def isMapped (m : LinkMap) (fs : FileSystem) (name : Bytes) : Bool :=
  m.objects.any (·.isCalled name) ||
    name.contains Path.slash &&
      match fs.find true ⟨name⟩ with
      | .ok (location, _) => m.objects.any (·.file = some location)
      | .error _ => false

end LinkMap

end Confinement.SharedObject
