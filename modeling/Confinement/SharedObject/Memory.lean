import Confinement.SharedObject.Image
import Std.Data.HashMap

/-!
# Memory

The memory of a process is made of regions.  A region begins with bytes from a
file and goes on with zeros; what was written since lies on top.  An address
outside all regions can be neither read nor written, and some regions can only
be read.
-/

namespace Confinement.SharedObject

/-- A stretch of addresses. -/
structure Region where
  start : Nat
  size : Nat
  content : ByteArray := ByteArray.empty
  writable : Bool := true

def Region.covers (r : Region) (address : Nat) : Bool :=
  r.start ≤ address && address - r.start < r.size

/-- The regions of a process, and the bytes written to them. -/
structure Memory where
  regions : List Region := []
  written : Std.HashMap Nat UInt8 := {}

namespace Memory

instance : Inhabited Memory := ⟨{}⟩

/-- The region an address lies in. -/
def region? (m : Memory) (address : Nat) : Option Region := m.regions.find? (·.covers address)

/-- The byte at an address. -/
def read? (m : Memory) (address : Nat) : Option UInt8 :=
  (m.region? address).map fun r =>
    match m.written[address]? with
    | some b => b
    | none => r.content.data[address - r.start]?.getD 0

/-- The bytes at an address and those that follow, as far as they can be
read. -/
def readSome (m : Memory) (address : Nat) : (count : Nat) → Bytes
  | 0 => []
  | count + 1 =>
    match m.read? address with
    | some b => b :: m.readSome (address + 1) count
    | none => []

/-- Exactly `count` bytes. -/
def readBytes? (m : Memory) (address count : Nat) : Option Bytes :=
  let bytes := m.readSome address count
  if bytes.length = count then some bytes else none

/-- A number of 8 bytes, the lowest first. -/
def readWord? (m : Memory) (address : Nat) : Option Nat :=
  (m.readBytes? address 8).map fun bytes => bytes.foldr (fun b n => n * 256 + b.toNat) 0

/-- The memory with one byte changed, whether or not it may be written. -/
def patch (m : Memory) (address : Nat) (b : UInt8) : Memory :=
  { m with written := m.written.insert address b }

/-- The memory with a number of 8 bytes changed. -/
def patchWord (m : Memory) (address n : Nat) : Memory :=
  (List.range 8).foldl (fun m i => m.patch (address + i) (UInt8.ofNat (n >>> (8 * i)))) m

/-- The memory with a number of 8 bytes written. -/
def writeWord? (m : Memory) (address n : Nat) : Option Memory :=
  let mayWrite (a : Nat) : Bool := (m.region? a).any (·.writable)
  if mayWrite address && mayWrite (address + 7) then some (m.patchWord address n) else none

/-- The bytes at an address up to the first NUL, at most `limit` of them. -/
def readName? (m : Memory) (address : Nat) : (limit : Nat) → Option Bytes
  | 0 => none
  | limit + 1 =>
    match m.read? address with
    | none => none
    | some 0 => some []
    | some b => (m.readName? (address + 1) limit).map (b :: ·)

end Memory

end Confinement.SharedObject
