import Confinement.Text.Utf8

/-!
# Instructions

The instructions an entry point may be made of: moves between registers and
memory, sums, calls, jumps without a condition, and requests to the system.
An operand is a register or an address made of a register, a scaled register
and a displacement, or of the address of the next instruction and a
displacement.

`decode` reads one instruction from the bytes at its address, and tells its
length.  Bytes that spell nothing known are no instruction.
-/

namespace Confinement.SharedObject

/-- What a displacement is added to. -/
inductive Base where
  | none
  | next
  | register (r : Nat)
  deriving DecidableEq, Repr

/-- Where an instruction finds or leaves a value. -/
inductive Operand where
  | register (r : Nat)
  | memory (base : Base) (index : Option (Nat × Nat)) (displacement : Int)
  deriving DecidableEq, Repr

/-- How two values are made into one. -/
inductive Operation where
  | add
  | sub
  | and
  | or
  | xor
  deriving DecidableEq, Repr

/-- A value that is computed from: an operand's, or a number. -/
inductive Source where
  | operand (o : Operand)
  | number (n : Int)
  deriving DecidableEq, Repr

/-- One instruction.  The wide form of a move or a sum works on 8 bytes, the
other on 4 and clears the rest of a register. -/
inductive Instruction where
  | push (s : Source)
  | pop (r : Nat)
  | move (wide : Bool) (target : Operand) (s : Source)
  | compute (op : Operation) (wide : Bool) (target : Operand) (s : Source)
  | address (r : Nat) (o : Operand)
  | call (o : Operand)
  | callBy (displacement : Int)
  | jump (o : Operand)
  | jumpBy (displacement : Int)
  | request
  | back
  | nothing
  | trap (signal : Int32)
  deriving DecidableEq, Repr

namespace Instruction

/-- A signed number of bytes, the lowest first. -/
def signed (bytes : Bytes) : Int :=
  Int.bmod (bytes.foldr (fun b n => n * 256 + b.toNat) 0 : Nat) (1 <<< (8 * bytes.length))

/-- The first `count` bytes as a signed number. -/
def signed? (count : Nat) (bytes : Bytes) : Option Int :=
  if bytes.length < count then none else some (signed (bytes.take count))

/-- The bits that widen the fields of an instruction. -/
structure Widening where
  wide : Bool := false
  register : Bool := false
  index : Bool := false
  base : Bool := false

/-- The widening a byte spells. -/
def Widening.ofByte (b : UInt8) : Widening :=
  { wide := b &&& 8 != 0, register := b &&& 4 != 0, index := b &&& 2 != 0, base := b &&& 1 != 0 }

/-- A field of three bits with the bit that widens it. -/
def field (high : Bool) (low : UInt8) : Nat := (if high then 8 else 0) + (low &&& 7).toNat

/-- An operand with the field beside it and the number of bytes they take. -/
structure Form where
  register : Nat
  operand : Operand
  length : Nat

/-- The base and the scaled register a byte spells. -/
def scaled (w : Widening) (mode b : UInt8) : Base × Option (Nat × Nat) :=
  let index := field w.index (b >>> 3)
  let base : Base := if mode = 0 ∧ b &&& 7 = 5 then .none else .register (field w.base b)
  (base, if index = 4 then none else some (index, 1 <<< (b >>> 6).toNat))

/-- The operand that the bytes after the code of an instruction spell. -/
def form? (w : Widening) : Bytes → Option Form
  | [] => none
  | b :: rest =>
    let mode := b >>> 6
    let register := field w.register (b >>> 3)
    let low := b &&& 7
    if mode = 3 then some ⟨register, .register (field w.base b), 1⟩
    else
      let (base, index, skipped) : Base × Option (Nat × Nat) × Nat :=
        if low = 4 then
          let (base, index) := scaled w mode (rest.headD 0)
          (base, index, 1)
        else if mode = 0 ∧ low = 5 then (.next, none, 0)
        else (.register (field w.base b), none, 0)
      let size := if mode = 1 then 1 else if mode = 2 ∨ base = .next ∨ base = .none then 4 else 0
      (signed? size (rest.drop skipped)).map fun displacement =>
        ⟨register, .memory base index displacement, 1 + skipped + size⟩

/-- The operation that a field of three bits selects. -/
def operation? : Nat → Option Operation
  | 0 => some .add
  | 1 => some .or
  | 4 => some .and
  | 5 => some .sub
  | 6 => some .xor
  | _ => none

/-- An instruction whose code begins with the byte 0x0F. -/
def decodeSecond (w : Widening) : Bytes → Option (Instruction × Nat)
  | 0x05 :: _ => some (.request, 2)
  | 0x0B :: _ => some (.trap 4, 2)
  | 0x1E :: 0xFA :: _ => some (.nothing, 3)
  | 0x1F :: rest => (form? w rest).map fun f => (.nothing, 2 + f.length)
  | _ => none

/-- An instruction without the bytes that stand before its code. -/
def decodePlain (w : Widening) : Bytes → Option (Instruction × Nat)
  | [] => none
  | 0x0F :: rest => decodeSecond w rest
  | 0x90 :: _ => some (.nothing, 1)
  | 0xC3 :: _ => some (.back, 1)
  | 0xCC :: _ => some (.trap 5, 1)
  | 0xF4 :: _ => some (.trap 11, 1)
  | 0x68 :: rest => (signed? 4 rest).map fun n => (.push (.number n), 5)
  | 0x6A :: rest => (signed? 1 rest).map fun n => (.push (.number n), 2)
  | 0xE8 :: rest => (signed? 4 rest).map fun d => (.callBy d, 5)
  | 0xE9 :: rest => (signed? 4 rest).map fun d => (.jumpBy d, 5)
  | 0xEB :: rest => (signed? 1 rest).map fun d => (.jumpBy d, 2)
  | 0x89 :: rest => (form? w rest).map fun f =>
    (.move w.wide f.operand (.operand (.register f.register)), 1 + f.length)
  | 0x8B :: rest => (form? w rest).map fun f =>
    (.move w.wide (.register f.register) (.operand f.operand), 1 + f.length)
  | 0x8D :: rest => (form? w rest).map fun f => (.address f.register f.operand, 1 + f.length)
  | 0xC7 :: rest => do
    let f ← form? w rest
    let n ← signed? 4 (rest.drop f.length)
    if f.register % 8 = 0 then some (.move w.wide f.operand (.number n), 5 + f.length) else none
  | 0x81 :: rest => do
    let f ← form? w rest
    let n ← signed? 4 (rest.drop f.length)
    let op ← operation? (f.register % 8)
    some (.compute op w.wide f.operand (.number n), 5 + f.length)
  | 0x83 :: rest => do
    let f ← form? w rest
    let n ← signed? 1 (rest.drop f.length)
    let op ← operation? (f.register % 8)
    some (.compute op w.wide f.operand (.number n), 2 + f.length)
  | 0xFF :: rest => do
    let f ← form? w rest
    match f.register % 8 with
    | 2 => some (.call f.operand, 1 + f.length)
    | 4 => some (.jump f.operand, 1 + f.length)
    | 6 => some (.push (.operand f.operand), 1 + f.length)
    | _ => none
  | code :: rest =>
    if code &&& 0xF8 = 0x50 then
      some (.push (.operand (.register (field w.base code))), 1)
    else if code &&& 0xF8 = 0x58 then some (.pop (field w.base code), 1)
    else if code &&& 0xF8 = 0xB8 then
      let size := if w.wide then 8 else 4
      (signed? size rest).map fun n =>
        (.move w.wide (.register (field w.base code)) (.number n), 1 + size)
    else if code < 0x40 ∧ (code &&& 7 = 1 ∨ code &&& 7 = 3) then do
      let f ← form? w rest
      let op ← operation? (code >>> 3).toNat
      let beside : Operand := .register f.register
      if code &&& 7 = 1 then some (.compute op w.wide f.operand (.operand beside), 1 + f.length)
      else some (.compute op w.wide beside (.operand f.operand), 1 + f.length)
    else none

/-- The instruction at the start of the bytes, with its length. -/
def decode (bytes : Bytes) : Option (Instruction × Nat) :=
  let idle := bytes.takeWhile fun b => b = 0x66 || b = 0x2E || b = 0xF3
  let rest := bytes.drop idle.length
  let decoded : Option (Instruction × Nat) :=
    match rest with
    | b :: after =>
      if b &&& 0xF0 = 0x40 then
        (decodePlain (.ofByte b) after).map fun (i, length) => (i, length + 1)
      else decodePlain {} rest
    | [] => none
  match decoded with
  | some (i, length) =>
    if idle = [] ∨ i = .nothing ∨ i = .back then some (i, idle.length + length) else none
  | none => none

/-- The longest instruction, in bytes. -/
def longest : Nat := 15

end Instruction

end Confinement.SharedObject
