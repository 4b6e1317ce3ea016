import Confinement.FileSystem.Resolve

/-!
# Reading files and directories

A listing shows the entries of a directory in the order of the tree.  A text
file is refused when its bytes are no text.  A location is spelled from the
directory that the process calls `/`.
-/

namespace Confinement.FileSystem

/-- The entries of the directory a path names. -/
def list (fs : FileSystem) (p : Path) : Except IoError Entries := do
  match ← fs.stat p with
  | .directory mode entries =>
    if fs.permits .read mode then .ok entries else .error (.system .accessDenied)
  | _ => .error (.system .notDirectory)

/-- The bytes of the file a path names.  Nothing is ever written to a pipe, so
one reads as empty. -/
def readBytes (fs : FileSystem) (p : Path) : Except IoError Bytes := do
  let node ← fs.stat p
  if !fs.permits .read node.mode then .error (.system .accessDenied)
  else
    match node with
    | .file _ content => .ok content
    | .directory .. => .error (.system .isDirectory)
    | _ => .ok []

/-- The text in the file a path names. -/
def readText (fs : FileSystem) (p : Path) : Except IoError String := do
  match Utf8.decode? (← fs.readBytes p) with
  | some text => .ok text
  | none => .error .notText

/-- The target of the link a path names. -/
def readLink (fs : FileSystem) (p : Path) : Except IoError Path := do
  match ← fs.lstat p with
  | .link target => .ok target
  | _ => .error (.system .invalid)

/-- The absolute path of a location. -/
def pathOf (fs : FileSystem) (location : Location) : Path :=
  ⟨Path.slash :: List.intercalate [Path.slash] (location.drop fs.root.length)⟩

/-- The absolute path, free of links, of the node a path names. -/
def canonical (fs : FileSystem) (p : Path) : Except IoError Path :=
  (fs.find true p).map (fs.pathOf ·.1)

/-- The directory the process stands in. -/
def currentDirectory (fs : FileSystem) : Path := fs.pathOf fs.cwd

end Confinement.FileSystem
