import Confinement.Path

/-!
# File trees

A file tree is a finite value: files with their bytes, symbolic links with
their target as written, named pipes, and directories with their entries in
the order in which a listing shows them.  A location is the list of names that
leads from the top of the tree to a node.

Two operations reach into a tree.  `Node.at?` is the node at a location, and
`Node.alter` replaces, adds or removes that one node; all else stays in place
(`Entries.lookup_alter_self`, `Entries.lookup_alter_of_ne`).
-/

namespace Confinement

/-- Permission bits, with the set-id and sticky bits above them. -/
abbrev Mode := Nat

/-- The names from the top of a tree to one of its nodes. -/
abbrev Location := List Bytes

/-- A node of a file tree. -/
inductive Node where
  | file (mode : Mode) (content : Bytes)
  | link (target : Path)
  | pipe (mode : Mode)
  | directory (mode : Mode) (entries : List (Bytes × Node))
  deriving Inhabited

/-- The entries of a directory, in listing order. -/
abbrev Entries := List (Bytes × Node)

namespace Node

def isDirectory : Node → Bool
  | .directory .. => true
  | _ => false

def isFile : Node → Bool
  | .file .. => true
  | _ => false

/-- The permission bits of a node; a link has none of its own. -/
def mode : Node → Mode
  | .file m _ | .pipe m | .directory m _ => m
  | .link _ => 0o777

/-- The node with other permission bits. -/
def withMode (m : Mode) : Node → Node
  | .file _ content => .file m content
  | .pipe _ => .pipe m
  | .directory _ entries => .directory m entries
  | .link target => .link target

/-- The entries of a directory; nothing else has any. -/
def entries : Node → Entries
  | .directory _ es => es
  | _ => []

/-- The node at a location. -/
def at? : Node → Location → Option Node
  | n, [] => some n
  | n, name :: rest => (n.entries.lookup name).bind (·.at? rest)

end Node

/-! ## Changing one node -/

/-- The entry called `name`, absent or present, replaced by what `f` makes of
it.  A new entry goes to the end of the listing. -/
def Entries.alter (f : Option Node → Option Node) (name : Bytes) : Entries → Entries
  | [] => ((f none).map (name, ·)).toList
  | (key, node) :: rest =>
    if key = name then ((f (some node)).map (key, ·)).toList ++ rest
    else (key, node) :: Entries.alter f name rest

/-- The node at a location, absent or present, replaced by what `f` makes of
it.  Nothing happens where the location passes through something other than a
directory. -/
def Node.alter (f : Option Node → Option Node) : Location → Option Node → Option Node
  | [], node => f node
  | name :: rest, some (.directory mode es) =>
    some (.directory mode (Entries.alter (Node.alter f rest) name es))
  | _ :: _, node => node

/-- What `f` makes of an entry is what a look-up then finds. -/
theorem Entries.lookup_alter_self (f : Option Node → Option Node) (name : Bytes) (es : Entries)
    (h : (f (es.lookup name)).isSome) :
    (Entries.alter f name es).lookup name = f (es.lookup name) := by
  induction es with
  | nil =>
    obtain ⟨node, hn⟩ := Option.isSome_iff_exists.1 h
    have hn : f none = some node := hn
    simp [Entries.alter, hn]
  | cons e rest ih =>
    obtain ⟨key, node⟩ := e
    by_cases hk : key = name
    · subst hk
      have hl : List.lookup key ((key, node) :: rest) = some node := by simp
      rw [hl] at h ⊢
      obtain ⟨made, hm⟩ := Option.isSome_iff_exists.1 h
      simp [Entries.alter, hm]
    · have hb : (name == key) = false := by simpa using fun h => hk h.symm
      simp only [List.lookup_cons, hb] at h
      simp only [Entries.alter, if_neg hk, List.lookup_cons, hb, ih h]

/-- All other entries stay as they are. -/
theorem Entries.lookup_alter_of_ne (f : Option Node → Option Node) {name other : Bytes}
    (h : other ≠ name) (es : Entries) :
    (Entries.alter f name es).lookup other = es.lookup other := by
  have hb : (other == name) = false := by simpa using h
  induction es with
  | nil => cases hf : f none <;> simp [Entries.alter, hf, List.lookup_cons, hb]
  | cons e rest ih =>
    obtain ⟨key, node⟩ := e
    by_cases hk : key = name
    · subst hk
      cases hf : f (some node) <;> simp [Entries.alter, hf, List.lookup_cons, hb]
    · simp only [Entries.alter, if_neg hk, List.lookup_cons, ih]

end Confinement
