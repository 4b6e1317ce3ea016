import Confinement.FileSystem.Read
import Confinement.Log
import Confinement.Text.Blank

/-!
# The catalog of extensions

Below a search directory, every entry that is no directory and whose name ends
with the extension suffix is an extension.  Its module name is spelled from
the components below the search directory, or from those behind the last
`site-packages` directory, or else behind the last `lib-dynload`.

A walk visits a directory after its contents and follows no links, except that
a search directory may itself be one.  A catalog holds names in order and each
once, so it does not depend on the order of the walk.
-/

namespace Confinement

/-! ## Walking -/

/-- What a walk meets. -/
inductive Meeting where
  | entry (path : Path) (node : Node)
  | failed (path : Path) (e : IoError)

/-- A failure of a walk in words. -/
def walkFailure (path : Path) (e : IoError) : String :=
  "IO error for operation on " ++ path.display ++ ": " ++ e.message

/-- What a walk below a directory meets.  Names grow longer with every step
down and are refused beyond the limit on paths, which bounds the depth. -/
def meetingsBelow (fs : FileSystem) : (depth : Nat) → Path → List Meeting
  | 0, _ => []
  | depth + 1, directory =>
    match fs.list directory with
    | .error e => [.failed directory e]
    | .ok entries =>
      entries.flatMap fun (name, node) =>
        let path := directory.child name
        (if node.isDirectory then meetingsBelow fs depth path else []) ++ [.entry path node]

/-- What a walk from a path meets. -/
def meetings (fs : FileSystem) (path : Path) : List Meeting :=
  match fs.lstat path with
  | .error e => [.failed path e]
  | .ok (.link target) =>
    match fs.stat path with
    | .error e => [.failed path e]
    | .ok node =>
      .entry path (.link target) ::
        if node.isDirectory then meetingsBelow fs FileSystem.pathLimit path else []
  | .ok node =>
    (if node.isDirectory then meetingsBelow fs FileSystem.pathLimit path else []) ++
      [.entry path node]

/-! ## Names -/

/-- The directory name behind which third-party extensions stand. -/
def thirdPartyMarker : String := "site-packages"

/-- The directory name behind which built-in extensions stand. -/
def builtinMarker : String := "lib-dynload"

/-- What stands behind the last occurrence of a marker. -/
def behindLast? (marker : String) (segments : List String) : Option (List String) :=
  if segments.contains marker then
    some (segments.reverse.takeWhile (· ≠ marker)).reverse
  else none

/-- The dotted name that segments spell, the last one cut at its first dot. -/
def dottedName? (segments : List String) : Option String :=
  match segments.getLast? with
  | none => none
  | some last =>
    let leaf := Text.before '.' last
    if leaf.isEmpty then none else some (String.intercalate "." (segments.dropLast ++ [leaf]))

/-- The module name of an extension found below a search directory. -/
def extensionName? (directory file : Path) : Option String :=
  let segments :=
    (file.componentsBelow directory).filterMap fun c => c.name?.bind Utf8.decode?
  dottedName? ((behindLast? thirdPartyMarker segments <|>
    behindLast? builtinMarker segments).getD segments)

/-! ## Catalogs -/

/-- Names of extensions, in order and each once. -/
structure Catalog where
  names : List String
  deriving DecidableEq, Inhabited

namespace Catalog

/-- Equal neighbours made one. -/
def squeeze : List String → List String
  | a :: b :: rest => if a = b then squeeze (b :: rest) else a :: squeeze (b :: rest)
  | names => names

theorem mem_squeeze {x : String} {names : List String} : x ∈ squeeze names ↔ x ∈ names := by
  fun_induction squeeze names with
  | case1 a rest ih => simp [ih]
  | case2 a b rest hne ih => simp [ih]
  | case3 names _ => rfl

/-- The catalog of some names. -/
def ofNames (names : List String) : Catalog :=
  ⟨squeeze (names.mergeSort fun a b => decide (a ≤ b))⟩

def size (c : Catalog) : Nat := c.names.length

/-- One name a line. -/
def render (c : Catalog) : String := String.join (c.names.map (· ++ "\n"))

/-- The name under which a meeting enters the catalog of a search directory. -/
def nameOf? (directory : Path) (suffix : String) : Meeting → Option String
  | .failed .. => none
  | .entry path node =>
    if node.isDirectory then none
    else
      match path.fileName?.bind Utf8.decode? with
      | none => none
      | some name =>
        if suffix.toList.isSuffixOf name.toList then extensionName? directory path else none

/-- The catalog of the extensions below search directories. -/
def build (fs : FileSystem) (directories : List Path) (suffix : String) : Catalog :=
  ofNames (directories.flatMap fun d => (meetings fs d).filterMap (nameOf? d suffix))

/-- The remarks made while a catalog is built. -/
def remarks (fs : FileSystem) (directories : List Path) (suffix : String) : Log :=
  (directories.flatMap fun d => (meetings fs d).filterMap fun
    | .failed path e =>
      some ⟨.debug, "Skipping unreadable entry under " ++ d.display ++ ": " ++ walkFailure path e⟩
    | .entry .. => none) ++
  [⟨.debug, "Cataloged " ++ toString (build fs directories suffix).size ++
    " native extensions under " ++ toString directories.length ++ " search paths"⟩]

/-! ## The catalog as JSON -/

/-- The spelling of a character in a JSON string. -/
def jsonChar (c : Char) : List Char :=
  if c = '"' then ['\\', '"']
  else if c = '\\' then ['\\', '\\']
  else if c = '\x08' then ['\\', 'b']
  else if c = '\x0c' then ['\\', 'f']
  else if c = '\n' then ['\\', 'n']
  else if c = '\r' then ['\\', 'r']
  else if c = '\t' then ['\\', 't']
  else if c.toNat < 0x20 then
    ['\\', 'u', '0', '0'] ++ Nat.toDigits 16 (c.toNat / 16) ++ Nat.toDigits 16 (c.toNat % 16)
  else [c]

/-- A text as a JSON string. -/
def jsonString (s : String) : String :=
  String.ofList (['"'] ++ s.toList.flatMap jsonChar ++ ['"'])

/-- A JSON list with one name a line. -/
def renderJson (c : Catalog) : String :=
  if c.names.isEmpty then "[]\n"
  else
    "[\n" ++ String.intercalate ",\n" (c.names.map fun n => "  " ++ jsonString n) ++ "\n]\n"

end Catalog

end Confinement
