import Confinement.FileSystem.Read
import Confinement.Text.Blank

/-!
# Finding objects on a search list

Three kinds of names lead to an object.  A loader name, a path or a file name
with the segment `so`, is left to the system's loader.  A library name is
sought as it stands in each search directory.  A dotted module name `a.b.c` is
sought in the directory `a/b` below each search directory, as a file whose
name up to the first dot is `c`; the first directory that holds one decides,
and within it the first in the order of names.
-/

namespace Confinement

/-- Whether a name is handed to the system's loader as it stands. -/
def isLoaderName (name : String) : Bool :=
  name.toList.contains '/' || (Text.fields '.' name).contains "so"

/-- The first search directory's entry `name` that is a file.  A name with a
directory in it is not sought. -/
def findLibrary (fs : FileSystem) (name : String) (directories : List Path) : Option Path :=
  if name.toList.contains '/' then none
  else (directories.map (·.join (.ofString name))).find? fs.isFile

/-- Whether a file name is `leaf` up to its first dot and ends as asked. -/
def namesModule (leaf : String) (suffix : Option String) (file : Bytes) : Bool :=
  match Utf8.decode? file with
  | none => false
  | some name =>
    Text.before '.' name = leaf &&
      match suffix with
      | some s => s.toList.isSuffixOf name.toList
      | none => true

/-- The files in a directory that implement the module `leaf`, in order. -/
def moduleFiles (fs : FileSystem) (leaf : String) (suffix : Option String) (directory : Path) :
    List Path :=
  match fs.list directory with
  | .error _ => []
  | .ok entries =>
    Path.sort
      (((entries.filter (namesModule leaf suffix ·.1)).map (directory.child ·.1)).filter fs.isFile)

/-- The file that implements the dotted module `name`. -/
def resolveModule (fs : FileSystem) (name : String) (directories : List Path)
    (suffix : Option String) : Option Path :=
  let segments := Text.fields '.' name
  if segments.any String.isEmpty then none
  else
    directories.findSome? fun base =>
      let directory := segments.dropLast.foldl (fun d part => d.join (.ofString part)) base
      (moduleFiles fs (segments.getLast?.getD "") suffix directory).head?

end Confinement
