import Confinement.FileSystem.Read
import Confinement.SharedObject.Dynamic
import Confinement.SharedObject.Memory

/-!
# Mapped objects

A link map lists the objects in the memory of a process, in the order in which
they were mapped.  An object is known by the name it was opened under, by the
file it came from, and by the name it gives itself.

A symbol is looked for in a scope, a list of objects: the first that defines
it counts.  The scope of an object is the object itself and all it depends on,
breadth first.  The global scope is made of the objects that were mapped from
the start and of those opened for all.

An object stays mapped as long as it is open, or needed by one that is.
-/

namespace Confinement.SharedObject

/-- A symbol that an object defines, with its address in memory. -/
structure Definition where
  name : Bytes
  address : Nat
  deriving DecidableEq

/-- An object in the memory of the process. -/
structure Mapped where
  number : Nat
  name : Bytes
  file : Option Location := none
  ownName : Option Bytes := none
  definitions : List Definition := []
  dependencies : List Nat := []
  providers : List Nat := []
  global : Bool := false
  permanent : Bool := false
  regions : List Region := []

/-- Whether an object goes by a name. -/
def Mapped.isCalled (o : Mapped) (name : Bytes) : Bool :=
  o.name = name || o.ownName = some name

/-- A library of the system, found by its name alone, with the functions of it
that can be called without arguments. -/
structure SystemLibrary where
  name : Bytes
  functions : List Bytes := []
  mapped : Bool := false

/-- The objects in the memory of a process. -/
structure LinkMap where
  objects : List Mapped := []
  written : Memory := {}
  system : List SystemLibrary := []
  openings : List (Nat × Nat) := []
  nextObject : Nat := 0
  nextOpening : Nat := 0
  deriving Inhabited

namespace LinkMap

/-- The memory of the process. -/
def memory (m : LinkMap) : Memory := { m.written with regions := m.objects.flatMap (·.regions) }

/-- The object with a number. -/
def object? (m : LinkMap) (number : Nat) : Option Mapped := m.objects.find? (·.number = number)

/-- The link map with one object changed. -/
def update (m : LinkMap) (number : Nat) (f : Mapped → Mapped) : LinkMap :=
  { m with objects := m.objects.map fun o => if o.number = number then f o else o }

/-! ## Scopes -/

/-- Everything that can be reached from `queue` and is not in `seen`, breadth
first, after `seen`. -/
def spread (next : Nat → List Nat) : (fuel : Nat) → (queue seen : List Nat) → List Nat
  | 0, _, seen => seen
  | _, [], seen => seen
  | fuel + 1, n :: queue, seen =>
    let fresh := ((next n).filter (!seen.contains ·)).eraseDups
    spread next fuel (queue ++ fresh) (seen ++ fresh)

/-- The objects that can be reached from some, breadth first. -/
def reach (m : LinkMap) (next : Mapped → List Nat) (start : List Nat) : List Nat :=
  spread (fun n => ((m.object? n).map next).getD []) m.objects.length start start

/-- The scope of an object. -/
def scope (m : LinkMap) (number : Nat) : List Mapped :=
  (m.reach (·.dependencies) [number]).filterMap m.object?

/-- The objects whose symbols all may use. -/
def globalScope (m : LinkMap) : List Mapped := m.objects.filter (·.global)

/-- The first object of a scope that defines a symbol, and its address. -/
def lookup (scope : List Mapped) (symbol : Bytes) : Option (Mapped × Nat) :=
  scope.findSome? fun o =>
    (o.definitions.find? (·.name = symbol)).map fun d => (o, d.address)

/-! ## Opening and closing -/

/-- The link map with an object open once more, and the number of the
opening. -/
def hold (m : LinkMap) (number : Nat) : Nat × LinkMap :=
  (m.nextOpening,
    { m with
      openings := m.openings ++ [(m.nextOpening, number)], nextOpening := m.nextOpening + 1 })

/-- The object of an opening. -/
def held? (m : LinkMap) (opening : Nat) : Option Mapped :=
  (m.openings.lookup opening).bind m.object?

/-- The link map without the objects that nothing needs any more. -/
def sweep (m : LinkMap) : LinkMap :=
  let roots := m.openings.map (·.2) ++ (m.objects.filter (·.permanent)).map (·.number)
  let kept := m.reach (fun o => o.dependencies ++ o.providers) roots.eraseDups
  { m with objects := m.objects.filter fun o => kept.contains o.number }

/-- The link map with one opening closed. -/
def release (m : LinkMap) (opening : Nat) : LinkMap :=
  { m with openings := m.openings.filter (·.1 ≠ opening) }.sweep

/-! ## System libraries -/

/-- The distance between the places of two objects in memory. -/
def spacing : Nat := 1 <<< 40

/-- The place in memory of the object with a number. -/
def baseOf (number : Nat) : Nat := (number + 1) * spacing

/-- The instruction that goes back to the caller. -/
def returnCode : UInt8 := 0xC3

/-- A system library mapped: each of its functions goes back at once. -/
def mapSystem (m : LinkMap) (library : SystemLibrary) : Nat × LinkMap :=
  let number := m.nextObject
  let count := library.functions.length
  let mapped : Mapped := {
    number
    name := library.name
    ownName := some library.name
    definitions := library.functions.zipIdx.map fun (name, i) => ⟨name, baseOf number + i⟩
    global := library.mapped
    permanent := library.mapped
    regions := [{ start := baseOf number
                  size := count
                  content := (List.replicate count returnCode).toByteArray
                  writable := false }] }
  (number, { m with objects := m.objects ++ [mapped], nextObject := number + 1 })

/-- The memory of a process that has just begun. -/
def ofSystem (system : List SystemLibrary) : LinkMap :=
  (system.filter (·.mapped)).foldl (fun m library => (m.mapSystem library).2) { system }

end LinkMap

end Confinement.SharedObject
