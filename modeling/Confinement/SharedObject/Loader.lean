import Confinement.SharedObject.Machine
import Confinement.SharedObject.Needed
import Confinement.SharedObject.Opening

/-!
# The loader of shared objects

The loader of a process that runs on its own: objects are read from the file
system and linked in memory, and their entry points are run.
-/

namespace Confinement.SharedObject

/-- Functions of the C library that can be called without arguments. -/
private def plainFunctions : List String :=
  ["sync", "sched_yield", "tzset", "rand", "random", "clock", "getpid", "getppid", "getuid",
   "geteuid", "getgid", "getegid"]

/-- The libraries of the system.  The program itself, which has the empty
name, and what it is linked with are mapped from the start. -/
def systemLibraries : List SystemLibrary :=
  let started (name : String) (functions : List String) : SystemLibrary :=
    ⟨Utf8.encode name, functions.map Utf8.encode, true⟩
  let other (name : String) : SystemLibrary := ⟨Utf8.encode name, [], false⟩
  [started "" [], started "libgcc_s.so.1" [], started "libc.so.6" plainFunctions,
   started "ld-linux-x86-64.so.2" []] ++
  ["libm.so.6", "libdl.so.2", "libpthread.so.0", "librt.so.1", "libutil.so.1",
   "libresolv.so.2", "libanl.so.1", "libnss_files.so.2", "libnss_dns.so.2"].map other

namespace LinkMap

/-- The link map of a process that has just begun. -/
def initial : LinkMap := ofSystem systemLibraries

/-- The address of a symbol in the scope of an opened object. -/
def entry (m : LinkMap) (opening : Nat) (symbol : Bytes) : Except LinkFault Nat := do
  let name ← linkerName symbol
  match m.held? opening with
  | none => throw (.of [] (.undefinedSymbol name))
  | some object =>
    match lookup (m.scope object.number) name with
    | some (_, address) => return address
    | none => throw (.of object.name (.undefinedSymbol name))

end LinkMap

/-- The loader of shared objects. -/
def loader : Loader LinkMap where
  load path binding fs m :=
    match linkerName path.bytes >>= fun name => m.open fs name (binding = .global) with
    | .ok (opening, m) => (.ok opening, m)
    | .error e => (.error (.opening path e.message), m)
  needed path fs m :=
    (match fs.readBytes path with
      | .error e => .error (.inspecting path e.message)
      | .ok bytes => (neededNames bytes).mapError fun e => .inspecting path e.message,
     m)
  isResident name fs m :=
    (match linkerName (Utf8.encode name) with
      | .ok name => m.isMapped fs name
      | .error _ => false,
     m)
  invoke unit symbol _ fs m :=
    match m.entry unit.handle (Utf8.encode symbol) with
    | .error e => (.back (.error (.missingSymbol symbol e.message)), fs, m)
    | .ok address =>
      let (result, written, fs) := runEntry m.memory fs address
      (result, fs, { m with written })
  close unit m := m.release unit.handle
  remark
    | .load path binding =>
      [⟨.debug, "Opened shared object " ++ path.display ++ " (" ++ binding.label ++ ")"⟩]
    | .invoke origin symbol => [⟨.debug, "Invoking " ++ symbol ++ " from " ++ origin.display⟩]
    | _ => []

/-- An open shared object as it is shown. -/
def describe (unit : CodeUnit) : String :=
  "SharedObject \x7b origin: " ++ Text.quotePath unit.origin ++ " \x7d"

end Confinement.SharedObject
