import Confinement.FileSystem.Read
import Confinement.Log
import Confinement.Text.Blank

/-!
# Extensions to preload

An extension set holds names without repetition, in the order of their text.
Names come from the baseline, from callers, and from list files with one name
a line; blanks around a name are dropped, and so are names with nothing else.
A list file that cannot be read leaves the set as it was.
-/

namespace Confinement

/-- Names of native extensions, in order and each once. -/
structure ExtensionSet where
  names : List String
  deriving DecidableEq, Repr, Inhabited

namespace ExtensionSet

/-- A name added at its place in an ordered list. -/
def insertName (name : String) : List String → List String
  | [] => [name]
  | other :: rest =>
    if name < other then name :: other :: rest
    else if name = other then other :: rest
    else other :: insertName name rest

theorem mem_insertName {x name : String} {names : List String} :
    x ∈ insertName name names ↔ x = name ∨ x ∈ names := by
  induction names with
  | nil => simp [insertName]
  | cons other rest ih =>
    by_cases hlt : name < other
    · simp [insertName, hlt]
    · by_cases heq : name = other
      · simp [insertName, heq]
      · simp only [insertName, if_neg hlt, if_neg heq, List.mem_cons, ih]
        constructor <;> rintro (h | h | h) <;> simp [h]

/-- The set with one more name. -/
def insert (s : ExtensionSet) (name : String) : ExtensionSet := ⟨insertName name s.names⟩

/-- What remains of names without the blanks around them and the blank ones
among them. -/
def clean (names : List String) : List String := (names.map Text.trim).filter (!·.isEmpty)

/-- The set with more names. -/
def extend (s : ExtensionSet) (names : List String) : ExtensionSet := (clean names).foldl insert s

/-- The set of the given names. -/
def ofNames (names : List String) : ExtensionSet := extend ⟨[]⟩ names

/-- What every run preloads: the libraries that name lookups and unwinding
open only when they are first needed. -/
def baseline : ExtensionSet := ofNames ["libgcc_s.so.1", "libnss_files.so.2", "libnss_dns.so.2"]

def contains (s : ExtensionSet) (name : String) : Bool := s.names.contains name

def size (s : ExtensionSet) : Nat := s.names.length

/-! ## List files -/

/-- The names in the text of a list file. -/
def listed (text : String) : List String := clean (Text.lines text)

/-- Why a list file is refused. -/
structure Unreadable where
  path : Path
  error : IoError

/-- A refused list file in words. -/
def Unreadable.message (u : Unreadable) : String :=
  "Unable to access list of extra modules to load " ++ u.path.display ++ ": " ++ u.error.message

/-- The names in a list file. -/
def readList (fs : FileSystem) (path : Path) : Except Unreadable (List String) := do
  let text ← (fs.readText path).mapError (⟨path, ·⟩)
  return listed text

/-- The set with the names in a list file. -/
def mergeFile (fs : FileSystem) (s : ExtensionSet) (path : Path) :
    Except Unreadable ExtensionSet × Log :=
  match readList fs path with
  | .ok names =>
    (.ok (s.extend names),
      [⟨.debug, "Merging " ++ toString names.length ++ " extra modules from " ++ path.display⟩])
  | .error u => (.error u, [])

end ExtensionSet

end Confinement
