import Confinement.CommandLine.Run
import Confinement.SharedObject.Loader

/-!
# The program

The program takes a picture of the files its run may turn to, runs its command
line on that picture, and then brings to the disk what the run wrote below the
working directory, prints what it printed, and exits with its status.

The picture holds the working directory, the linker's configuration, the
program's own configuration and the search directories that the environment
names.  Symbolic links are followed when it is taken.  The right to change the
root directory is not ours to use here, so the run's kernel refuses it.
-/

namespace Confinement.Program

/-- How deep a picture goes. -/
def depthLimit : Nat := 64

/-- The node at a path, with all below it. -/
def picture : (depth : Nat) → IO.FS.DirEntry → IO (Option Node)
  | 0, _ => return none
  | depth + 1, entry => do
    try
      match (← entry.path.metadata).type with
      | .dir =>
        let mut entries : Array (Bytes × Node) := #[]
        for child in ← entry.path.readDir do
          if let some node ← picture depth child then
            entries := entries.push (Utf8.encode child.fileName, node)
        return some (.directory 0o755 entries.toList)
      | .file => return some (.file 0o644 (← IO.FS.readBinFile entry.path).toList)
      | _ => return none
    catch _ => return none

/-- The file system with a node in the place that a path names. -/
def place (fs : FileSystem) (p : Path) (node : Node) : FileSystem :=
  let fs := match p.parent? with
    | some q => (fs.makeDirectories q).2
    | none => fs
  match fs.slot p with
  | .ok s => (fs.fill s node).toOption.getD fs
  | .error _ => fs

/-- The files of the linker and of the program that a run may read. -/
def systemFiles : List String :=
  ["/etc/ld.so.conf", "/etc/ld.so.conf.d", "/etc/jailcall/config.json", "/proc/self/maps"]

/-- The variables a run looks at. -/
def environmentRead : List String := SearchList.searchVariables ++ [Action.argumentsVariable]

/-- The files a run may turn to, seen from the working directory. -/
def files (here : IO.FS.DirEntry) (named : List String) : IO FileSystem := do
  let mut fs : FileSystem := { tree := .directory 0o755 [] }
  for name in systemFiles ++ named do
    if let some node ← picture depthLimit { here with fileName := name } then
      fs := place fs name node
  let cwd := Path.ofString here.path.toString
  if let some node ← picture depthLimit here then
    fs := place fs cwd node
  match fs.find true cwd with
  | .ok (location, _) => return { fs with cwd := location }
  | .error _ => return fs

/-- Whatever `after` holds that `before` does not, brought to the disk. -/
partial def deposit (entry : IO.FS.DirEntry) (before : Option Node) (after : Node) : IO Unit := do
  match after with
  | .directory _ entries =>
    if before.isNone then IO.FS.createDirAll entry.path
    for (name, node) in entries do
      let old := before.bind fun node => node.entries.lookup name
      if let some fileName := Utf8.decode? name then deposit ⟨entry.path, fileName⟩ old node
  | .file _ content =>
    match before with
    | some (.file _ old) =>
      if old ≠ content then IO.FS.writeBinFile entry.path content.toByteArray
    | _ => IO.FS.writeBinFile entry.path content.toByteArray
  | _ => return ()

/-- A kernel that refuses to change the root directory. -/
def kernel : Kernel := fun call => if call = .changeRoot then some .notPermitted else none

/-- The program. -/
def run (words : List String) : IO UInt32 := do
  let here : IO.FS.DirEntry := ⟨← IO.currentDir, ""⟩
  let mut env : Environment := []
  let mut named : List String := []
  for name in environmentRead do
    if let some value ← IO.getEnv name then
      env := env.set name (Utf8.encode value)
      named := named ++ value.splitOn ":"
  let fs ← files here (named.filter (· ≠ ""))
  let session : Session SharedObject.LinkMap :=
    { fs, loader := SharedObject.LinkMap.initial, env, kernel }
  let (life, after) :=
    CommandLine.run SharedObject.loader (words.map Utf8.encode) session
  if let some node := after.fs.tree.at? fs.cwd then
    deposit here (fs.tree.at? fs.cwd) node
  IO.print after.stdout
  IO.eprint after.stderr
  match life with
  | .ended o => return UInt32.ofNat (o.exitStatus.toInt % 256).toNat
  | _ => return 1

end Confinement.Program

/-- The program on its command line. -/
def main (words : List String) : IO UInt32 := Confinement.Program.run words
