import Confinement.FileSystem.Read

/-!
# Changing a file system

Each elementary change touches one node: it makes a directory or a link where
nothing was, replaces a file, or sets permission bits.  It either happens as a
whole or leaves the file system alone, so its result is a new file system or
an error.

`makeDirectories` and `copyFile` are made of several elementary changes.  One
that fails halfway keeps the earlier changes, so these two return the file
system beside their result.

New directories get mode 755 and inherit the set-group-id bit of the directory
above them.
-/

namespace Confinement.FileSystem

/-- The file system with one node replaced. -/
def put (fs : FileSystem) (location : Location) (node : Node) : FileSystem :=
  { fs with tree := (Node.alter (fun _ => some node) location (some fs.tree)).getD fs.tree }

/-- The file system without the node at a location and all below it. -/
def remove (fs : FileSystem) (location : Location) : FileSystem :=
  { fs with tree := (Node.alter (fun _ => none) location (some fs.tree)).getD fs.tree }

/-- A place for a new entry: the directory with its mode, the name, what is
there already, and whether the path insists on a directory. -/
structure Slot where
  directory : Location
  mode : Mode
  name : Bytes
  present : Option Node
  directoryOnly : Bool

/-- The place a path names as an entry of its parent directory.  A path that
ends in `.` or `..`, or names the root, has no such place. -/
def slot (fs : FileSystem) (p : Path) : Except IoError Slot := do
  checkName p
  (checkLength p).mapError .system
  let steps := p.segments.filter (!·.isEmpty)
  match steps.getLast? with
  | none => .error (.system .alreadyExists)
  | some name =>
    match (fs.route true linkLimit (fs.start p) steps.dropLast).mapError .system with
    | .error e => .error e
    | .ok (.free ..) => .error (.system .noEntry)
    | .ok (.taken location node) =>
      match node with
      | .directory mode entries =>
        if !fs.permits .search mode then .error (.system .accessDenied)
        else if name = [0x2E] ∨ name = [0x2E, 0x2E] then .error (.system .alreadyExists)
        else if nameLimit < name.length then .error (.system .nameTooLong)
        else .ok ⟨location, mode, name, entries.lookup name, p.endsWithSlash⟩
      | _ => .error (.system .notDirectory)

/-- The bit by which a directory hands its group down. -/
def setGroupBit : Mode := 0o2000

/-- The bit by which a program runs as its owner. -/
def setUserBit : Mode := 0o4000

/-- The file system with a new node in a free place. -/
def fill (fs : FileSystem) (s : Slot) (node : Node) : Except IoError FileSystem :=
  if fs.permits .write s.mode then .ok (fs.put (s.directory ++ [s.name]) node)
  else .error (.system .accessDenied)

/-- A new, empty directory. -/
def makeDirectory (fs : FileSystem) (p : Path) : Except IoError FileSystem := do
  let s ← fs.slot p
  if s.present.isSome then .error (.system .alreadyExists)
  else fs.fill s (.directory (0o755 ||| s.mode &&& setGroupBit) [])

/-- A new symbolic link.  A slash after its path asks for a directory, which a
link is not. -/
def makeLink (fs : FileSystem) (target p : Path) : Except IoError FileSystem := do
  checkName target
  checkName p
  (checkLength target).mapError .system
  let s ← fs.slot p
  if s.present.isSome then .error (.system .alreadyExists)
  else if s.directoryOnly then .error (.system .noEntry)
  else fs.fill s (.link target)

/-- The permission bits of the node a path names, a link followed. -/
def setMode (fs : FileSystem) (p : Path) (mode : Mode) : Except IoError FileSystem := do
  let (location, node) ← fs.find true p
  .ok (fs.put location (node.withMode mode))

/-- A file opened for writing: emptied if it was there, else new with the
given mode.  A link is followed, also to a file that does not exist yet. -/
def openEmpty (fs : FileSystem) (p : Path) (mode : Mode) :
    Except IoError (Location × FileSystem) := do
  checkName p
  (checkLength p).mapError .system
  if p.endsWithSlash then
    match fs.slot p with
    | .ok _ => .error (.system .isDirectory)
    | .error (.system e) => .error (.system (if e = .alreadyExists then .isDirectory else e))
    | .error e => .error e
  else
    match fs.resolve true p with
    | .error e => .error (.system e)
    | .ok (.free directory name) =>
      match fs.tree.at? directory with
      | some node =>
        if fs.permits .write node.mode then
          .ok (directory ++ [name], fs.put (directory ++ [name]) (.file (mode &&& 0o7755) []))
        else .error (.system .accessDenied)
      | none => .error (.system .noEntry)
    | .ok (.taken location node) =>
      if node.isDirectory then .error (.system .isDirectory)
      else if !fs.permits .write node.mode then .error (.system .accessDenied)
      else if node.isFile then .ok (location, fs.put location (.file node.mode []))
      else .ok (location, fs)

/-- The bit by which the group may run a program. -/
def groupRunBit : Mode := 0o10

/-- A mode without some of its bits. -/
def cleared (mode bits : Mode) : Mode := mode ^^^ (mode &&& bits)

/-- The mode of a file after this process wrote bytes to it.  Unless a superuser
wrote them, the file no longer runs as its owner, nor as its group where the
group may run it. -/
def modeAfterWrite (fs : FileSystem) (mode : Mode) : Mode :=
  if fs.superuser then mode
  else
    let mode := cleared mode setUserBit
    if mode &&& groupRunBit = 0 then mode else cleared mode setGroupBit

/-- The file system with `content` in the file at a location, if a file is
there. -/
def fillFile (fs : FileSystem) (location : Location) (mode : Mode) (content : Bytes) :
    FileSystem :=
  match fs.tree.at? location with
  | some (.file ..) =>
    fs.put location (.file (if content.isEmpty then mode else fs.modeAfterWrite mode) content)
  | _ => fs

/-! ## Several changes in a row -/

/-- A directory and, where they are missing, those above it.  `above` lists
the path and its ancestors from the inside out; an ancestor that exists as a
directory is left alone. -/
def makeEach (fs : FileSystem) : (above : List Path) → Except IoError Unit × FileSystem
  | [] => (.ok (), fs)
  | p :: above =>
    if p.isEmpty then (.ok (), fs)
    else
      match fs.makeDirectory p with
      | .ok made => (.ok (), made)
      | .error e =>
        if e = .system .noEntry then
          match fs.makeEach above with
          | (.error e, made) => (.error e, made)
          | (.ok (), made) =>
            match made.makeDirectory p with
            | .ok done => (.ok (), done)
            | .error e => if made.isDirectory p then (.ok (), made) else (.error e, made)
        else if fs.isDirectory p then (.ok (), fs)
        else (.error e, fs)

/-- A path and the paths above it, from the inside out. -/
def lineage : (fuel : Nat) → Path → List Path
  | 0, p => [p]
  | fuel + 1, p =>
    match p.parent? with
    | some q => p :: lineage fuel q
    | none => [p]

/-- A directory with all that is missing above it. -/
def makeDirectories (fs : FileSystem) (p : Path) : Except IoError Unit × FileSystem :=
  fs.makeEach (lineage p.length p)

/-- A copy of a file with its mode.  The copy is emptied before the source is
read, so a file copied onto itself is lost. -/
def copyFile (fs : FileSystem) (source target : Path) : Except IoError Unit × FileSystem :=
  match fs.find true source with
  | .error e => (.error e, fs)
  | .ok (location, node) =>
    if !fs.permits .read node.mode then (.error (.system .accessDenied), fs)
    else if !node.isFile then (.error .notFile, fs)
    else
      -- The target is emptied first: it may be the source under another name.
      match fs.openEmpty target node.mode with
      | .error e => (.error e, fs)
      | .ok (copy, opened) =>
        let content :=
          match opened.tree.at? location with
          | some (.file _ content) => content
          | _ => []
        (.ok (), opened.fillFile copy node.mode content)

end Confinement.FileSystem
