import Confinement.Errno
import Confinement.FileSystem.Tree

/-!
# Where a path leads

A file system is a tree together with the standpoint of one process: the
directory it calls `/`, the directory it stands in, and whether it is a
superuser, whom permission bits do not bind.  All nodes belong to that process's
user.

A path is walked segment by segment.  A walk is cut into legs: a leg ends at
the node the path names, at a name missing from the last directory, at an
error, or at a symbolic link, whose target is then walked in its place.  At
most forty links are followed, so every walk ends.

An empty path, a path of 4096 bytes or more and a name of more than 255 bytes
lead nowhere.
-/

namespace Confinement

/-- A file tree as one process sees it. -/
structure FileSystem where
  tree : Node
  root : Location := []
  cwd : Location := []
  superuser : Bool := false
  deriving Inhabited

/-- What a path leads to: a node, or a free name in an existing directory. -/
inductive Spot where
  | taken (location : Location) (node : Node)
  | free (directory : Location) (name : Bytes)

/-- What permission bits may grant. -/
inductive Right where
  | read
  | write
  | search

/-- The owner's bit for a right. -/
def Right.bit : Right → Mode
  | .read => 0o400
  | .write => 0o200
  | .search => 0o100

namespace FileSystem

/-- The longest name of a directory entry, in bytes. -/
def nameLimit : Nat := 255

/-- The length, in bytes, from which on a path is refused. -/
def pathLimit : Nat := 4096

/-- The number of symbolic links one walk may follow. -/
def linkLimit : Nat := 40

/-- Whether the permission bits grant a right to this process. -/
def permits (fs : FileSystem) (right : Right) (mode : Mode) : Bool :=
  fs.superuser || mode &&& right.bit != 0

/-- The steps of a path: its segments, and one more `.` for a slash at the
end, which asks for a directory. -/
def stepsOf (p : Path) : List Bytes :=
  p.segments.filter (!·.isEmpty) ++ if p.endsWithSlash then [[0x2E]] else []

/-- The directory from which a path is walked. -/
def start (fs : FileSystem) (p : Path) : Location := if p.isAbsolute then fs.root else fs.cwd

/-- The end of one leg of a walk. -/
inductive Leg where
  | arrived (location : Location)
  | free (directory : Location) (name : Bytes)
  | turned (directory : Location) (target : Path) (rest : List Bytes)
  | failed (e : Errno)

/-- One leg of a walk from the directory `here`.  A link in last place is
followed only when `follow` is set. -/
def leg (fs : FileSystem) (follow : Bool) (here : Location) : List Bytes → Leg
  | [] => .arrived here
  | step :: rest =>
    match fs.tree.at? here with
    | some (.directory mode entries) =>
      if !fs.permits .search mode then .failed .accessDenied
      else if step = [0x2E] then leg fs follow here rest
      else if step = [0x2E, 0x2E] then
        leg fs follow (if here = fs.root then here else here.dropLast) rest
      else if nameLimit < step.length then .failed .nameTooLong
      else
        match entries.lookup step with
        | none => if rest.isEmpty then .free here step else .failed .noEntry
        | some (.link target) =>
          if rest.isEmpty && !follow then .arrived (here ++ [step]) else .turned here target rest
        | some _ => leg fs follow (here ++ [step]) rest
    | some _ => .failed .notDirectory
    | none => .failed .noEntry

/-- A walk that may still follow `budget` links. -/
def route (fs : FileSystem) (follow : Bool) :
    (budget : Nat) → Location → List Bytes → Except Errno Spot
  | budget, here, steps =>
    match fs.leg follow here steps with
    | .arrived location =>
      match fs.tree.at? location with
      | some node => .ok (.taken location node)
      | none => .error .noEntry
    | .free directory name => .ok (.free directory name)
    | .failed e => .error e
    | .turned directory target rest =>
      match budget with
      | 0 => .error .tooManyLinks
      | budget + 1 =>
        if target.isEmpty then .error .noEntry
        else
          fs.route follow budget (if target.isAbsolute then fs.root else directory)
            (stepsOf target ++ rest)

section

variable {fs : FileSystem} {follow : Bool} {here directory location : Location}
  {steps : List Bytes} {name : Bytes} {node : Node}

theorem leg_nil : fs.leg follow here [] = .arrived here := by
  rw [leg]

/-- Of a route only its legs count. -/
theorem route_congr {there : Location} {others : List Bytes} {budget : Nat}
    (h : fs.leg follow here steps = fs.leg follow there others) :
    fs.route follow budget here steps = fs.route follow budget there others := by
  unfold route
  rw [h]

theorem route_of_arrived (hleg : fs.leg follow here steps = .arrived location)
    (hat : fs.tree.at? location = some node) (budget : Nat) :
    fs.route follow budget here steps = .ok (.taken location node) := by
  rw [route, hleg]
  simp only [hat]

theorem route_of_free (hleg : fs.leg follow here steps = .free directory name) (budget : Nat) :
    fs.route follow budget here steps = .ok (.free directory name) := by
  rw [route, hleg]

theorem route_of_failed {e : Errno} (hleg : fs.leg follow here steps = .failed e) (budget : Nat) :
    fs.route follow budget here steps = .error e := by
  rw [route, hleg]

end

/-- A path is refused unread when it is empty or too long. -/
def checkLength (p : Path) : Except Errno Unit :=
  if p.isEmpty then .error .noEntry
  else if pathLimit ≤ p.length then .error .nameTooLong
  else .ok ()

/-- Where a path leads. -/
def resolve (fs : FileSystem) (follow : Bool) (p : Path) : Except Errno Spot := do
  checkLength p
  fs.route follow linkLimit (fs.start p) (stepsOf p)

/-- A name with a NUL byte cannot be passed to the system. -/
def checkName (p : Path) : Except IoError Unit :=
  if p.bytes.contains 0 then .error .nulInName else .ok ()

/-- The node a path names and its location. -/
def find (fs : FileSystem) (follow : Bool) (p : Path) : Except IoError (Location × Node) := do
  checkName p
  match fs.resolve follow p with
  | .ok (.taken location node) => .ok (location, node)
  | .ok (.free ..) => .error (.system .noEntry)
  | .error e => .error (.system e)

/-- The node a path names, a link in last place followed. -/
def stat (fs : FileSystem) (p : Path) : Except IoError Node := (fs.find true p).map (·.2)

/-- The node a path names, a link in last place not followed. -/
def lstat (fs : FileSystem) (p : Path) : Except IoError Node := (fs.find false p).map (·.2)

def isDirectory (fs : FileSystem) (p : Path) : Bool :=
  match fs.stat p with
  | .ok node => node.isDirectory
  | .error _ => false

def isFile (fs : FileSystem) (p : Path) : Bool :=
  match fs.stat p with
  | .ok node => node.isFile
  | .error _ => false

end FileSystem

end Confinement
