import Confinement.Child
import Confinement.FileSystem.Write
import Confinement.SharedObject.Instruction
import Confinement.SharedObject.Memory

/-!
# Running an entry point

A machine has sixteen registers, the address of the next instruction, memory
and the files it may ask the system for.  It is started at the address of an
entry point with a return address on its stack that belongs to no region: when
control arrives there the entry point has come back.

An instruction that is none ends the process with an illegal-instruction
signal, an access outside memory with a segmentation fault.  A machine that
does not come back within its budget of steps is taken to run for ever.

An entry point has no open files but those it opens itself.
-/

namespace Confinement.SharedObject

/-! ## The system -/

/-- A file that an entry point has open for writing. -/
structure OpenFile where
  descriptor : Nat
  location : Location
  place : Nat
  appending : Bool

/-- The numbers below this one fit a register. -/
def registerLimit : Nat := 1 <<< 64

/-- Bits that a new file of this process never has. -/
def creationMask : Mode := 0o022

namespace OpenFlag

def accessMask : Nat := 0o3
def create : Nat := 0o100
def exclusive : Nat := 0o200
def truncate : Nat := 0o1000
def append : Nat := 0o2000

end OpenFlag

/-- Whether a flag is set. -/
private def has (flags flag : Nat) : Bool := flags &&& flag != 0

/-- The file a path names, opened as the flags say. -/
def openFile (fs : FileSystem) (p : Path) (flags mode : Nat) :
    Except IoError (Location × FileSystem) := do
  match fs.resolve true p with
  | .error e => .error (.system e)
  | .ok (.free ..) =>
    if has flags OpenFlag.create then
      fs.openEmpty p (mode - (mode &&& creationMask))
    else .error (.system .noEntry)
  | .ok (.taken location node) =>
    let writing := flags &&& OpenFlag.accessMask != 0
    if has flags OpenFlag.create && has flags OpenFlag.exclusive then
      .error (.system .alreadyExists)
    else if node.isDirectory && (writing || has flags OpenFlag.create) then
      .error (.system .isDirectory)
    else if has flags OpenFlag.truncate then fs.openEmpty p mode
    else if !fs.permits (if writing then .write else .read) node.mode then
      .error (.system .accessDenied)
    else .ok (location, fs)

/-- The content of a file with bytes written at a place. -/
def overwrite (content : Bytes) (place : Nat) (bytes : Bytes) : Bytes :=
  content.take place ++ List.replicate (place - content.length) 0 ++ bytes ++
    content.drop (place + bytes.length)

/-! ## The machine -/

/-- The state of a running entry point. -/
structure Machine where
  memory : Memory
  registers : List Nat := List.replicate 16 0
  next : Nat
  files : FileSystem
  opened : List OpenFile := []

/-- Why a machine stopped. -/
inductive Halt where
  | back
  | ended (o : Outcome)
  deriving DecidableEq, Repr

namespace Machine

/-- The registers by which the system is asked, and by which it answers. -/
def accumulator : Nat := 0
def thirdArgument : Nat := 2
def stackPointer : Nat := 4
def secondArgument : Nat := 6
def firstArgument : Nat := 7

/-- The end of the process by a signal. -/
def killed (signal : Int32) : Except Halt α := .error (.ended (.signaled signal))

/-- The signal of an access outside memory. -/
def badAccess : Int32 := 11

/-- The signal of an instruction that is none. -/
def badInstruction : Int32 := 4

/-- A number as a register holds it. -/
def wrap (n : Int) : Nat := (n % registerLimit).toNat

def register (m : Machine) (r : Nat) : Nat := m.registers[r]?.getD 0

def setRegister (m : Machine) (r n : Nat) : Machine := { m with registers := m.registers.set r n }

/-- The address of an operand in memory. -/
def addressOf (m : Machine) (base : Base) (index : Option (Nat × Nat)) (displacement : Int) : Nat :=
  let start : Nat :=
    match base with
    | .none => 0
    | .next => m.next
    | .register r => m.register r
  let offset : Nat :=
    match index with
    | some (r, scale) => m.register r * scale
    | none => 0
  wrap (start + offset + displacement)

/-- The value of an operand. -/
def value (m : Machine) : Operand → Except Halt Nat
  | .register r => .ok (m.register r)
  | .memory base index displacement =>
    match m.memory.readWord? (m.addressOf base index displacement) with
    | some n => .ok n
    | none => killed badAccess

/-- The value of a source. -/
def sourceValue (m : Machine) : Source → Except Halt Nat
  | .operand o => m.value o
  | .number n => .ok (wrap n)

/-- The lower half of a register. -/
def half (n : Nat) : Nat := n % 1 <<< 32

/-- The machine with a value left in an operand. -/
def leave (m : Machine) (wide : Bool) (target : Operand) (n : Nat) : Except Halt Machine :=
  match target with
  | .register r => .ok (m.setRegister r (if wide then n else half n))
  | .memory base index displacement =>
    let address := m.addressOf base index displacement
    match m.memory.readWord? address with
    | none => killed badAccess
    | some old =>
      let n := if wide then n else old - half old + half n
      match m.memory.writeWord? address n with
      | some memory => .ok { m with memory }
      | none => killed badAccess

/-- The machine with a value on its stack. -/
def push (m : Machine) (n : Nat) : Except Halt Machine :=
  let top := wrap (m.register stackPointer - 8)
  match m.memory.writeWord? top n with
  | some memory => .ok ({ m with memory }.setRegister stackPointer top)
  | none => killed badAccess

/-- The value on top of the stack, and the machine without it. -/
def pop (m : Machine) : Except Halt (Nat × Machine) :=
  let top := m.register stackPointer
  match m.memory.readWord? top with
  | some n => .ok (n, m.setRegister stackPointer (wrap (top + 8)))
  | none => killed badAccess

/-- Two values made into one. -/
def combine : Operation → Nat → Nat → Nat
  | .add, a, b => wrap (a + b)
  | .sub, a, b => wrap (a - b)
  | .and, a, b => a &&& b
  | .or, a, b => a ||| b
  | .xor, a, b => a ^^^ b

/-! ## Requests to the system -/

/-- The answer to a request, with a refusal as a negative number. -/
def answer (m : Machine) (n : Int) : Machine := m.setRegister accumulator (wrap n)

/-- An open request. -/
def openRequest (m : Machine) : Machine :=
  match m.memory.readName? (m.register firstArgument) (FileSystem.pathLimit + 1) with
  | none => m.answer (-14)
  | some name =>
    let flags := m.register secondArgument
    match openFile m.files ⟨name⟩ flags (m.register thirdArgument) with
    | .error (.system e) => m.answer (-e.code)
    | .error _ => m.answer (-22)
    | .ok (location, files) =>
      let used := m.opened.map (·.descriptor)
      let descriptor := ((List.range (used.length + 1)).map (· + 3)).find? (!used.contains ·)
        |>.getD (used.length + 3)
      let file : OpenFile := ⟨descriptor, location, 0, has flags OpenFlag.append⟩
      { m with files, opened := m.opened ++ [file] }.answer descriptor

/-- A write request. -/
def writeRequest (m : Machine) : Machine :=
  match m.opened.find? (·.descriptor = m.register firstArgument) with
  | none => m.answer (-9)
  | some file =>
    let count := m.register thirdArgument
    match m.memory.readBytes? (m.register secondArgument) count, m.files.tree.at? file.location with
    | some bytes, some (.file mode content) =>
      let place := if file.appending then content.length else file.place
      let moved := { file with place := place + count }
      { m with
        files := m.files.fillFile file.location mode (overwrite content place bytes)
        opened := m.opened.map fun (f : OpenFile) =>
          if f.descriptor = file.descriptor then moved else f }.answer count
    | none, _ => m.answer (-14)
    | _, _ => m.answer (-9)

/-- A close request. -/
def closeRequest (m : Machine) : Machine :=
  let descriptor := m.register firstArgument
  if m.opened.any (·.descriptor = descriptor) then
    { m with opened := m.opened.filter (·.descriptor ≠ descriptor) }.answer 0
  else m.answer (-9)

/-- A request: to write, to open, to close, or to exit. -/
def request (m : Machine) : Except Halt Machine :=
  match m.register accumulator with
  | 1 => .ok m.writeRequest
  | 2 => .ok m.openRequest
  | 3 => .ok m.closeRequest
  | 60 | 231 => .error (.ended (.exited (Int32.ofNat (m.register firstArgument % 256))))
  | _ => .ok (m.answer (-38))

/-! ## Steps -/

/-- One instruction carried out; the machine already points past it. -/
def execute (m : Machine) : Instruction → Except Halt Machine
  | .push s => do m.push (← m.sourceValue s)
  | .pop r => do
    let (n, m) ← m.pop
    return m.setRegister r n
  | .move wide target s => do m.leave wide target (← m.sourceValue s)
  | .compute op wide target s => do
    m.leave wide target (combine op (← m.value target) (← m.sourceValue s))
  | .address r o =>
    match o with
    | .memory base index displacement => .ok (m.setRegister r (m.addressOf base index displacement))
    | .register _ => killed badInstruction
  | .call o => do
    let target ← m.value o
    return { (← m.push m.next) with next := target }
  | .callBy d => do return { (← m.push m.next) with next := wrap (m.next + d) }
  | .jump o => do return { m with next := ← m.value o }
  | .jumpBy d => .ok { m with next := wrap (m.next + d) }
  | .request => m.request
  | .back => do
    let (target, m) ← m.pop
    return { m with next := target }
  | .nothing => .ok m
  | .trap signal => killed signal

/-- The address that control returns to. -/
def returnAddress : Nat := 0

/-- One step. -/
def step (m : Machine) : Except Halt Machine :=
  if m.next = returnAddress then .error .back
  else
    match m.memory.readSome m.next Instruction.longest with
    | [] => killed badAccess
    | bytes =>
      match Instruction.decode bytes with
      | none => killed badInstruction
      | some (i, length) =>
        if bytes.length < length then killed badAccess
        else { m with next := wrap (m.next + length) }.execute i

/-- At most `budget` steps: the machine as it is then, and why it stopped, if
it did. -/
def run : (budget : Nat) → Machine → Option Halt × Machine
  | 0, m => (none, m)
  | budget + 1, m =>
    match m.step with
    | .ok m => run budget m
    | .error halt => (some halt, m)

/-- The number of steps after which a machine is taken to run for ever. -/
def budget : Nat := 1000000

/-- The stack of an entry point. -/
def stack : Region := { start := 0x7FFFFF000000, size := 0x800000 }

/-- A machine about to run the entry point at an address. -/
def atEntry (memory : Memory) (files : FileSystem) (address : Nat) : Machine :=
  let top := stack.start + stack.size - 64
  { memory := ({ memory with regions := stack :: memory.regions }).patchWord top returnAddress
    next := address
    files
    registers := (List.replicate 16 0).set stackPointer top }

end Machine

/-- What became of an entry point, with the memory and the files it left. -/
def runEntry (memory : Memory) (files : FileSystem) (address : Nat) :
    Return × Memory × FileSystem :=
  let (halt, m) := Machine.run Machine.budget (.atEntry memory files address)
  let left := { m.memory with regions := memory.regions }
  match halt with
  | some .back => (.back (.ok ()), left, m.files)
  | some (.ended o) => (.never (.ended o), left, m.files)
  | none => (.never .asleep, left, m.files)

end Confinement.SharedObject
