import Confinement.Text.Utf8

/-!
# Paths

A path is a byte string; what it names is read off its components.  Repeated
slashes and `.` segments carry no meaning, except that a relative path may
begin with `.`.  Two notions of equality follow: `p = q` compares the bytes,
`p.Same q` the components.

* `Path.join` appends a path to a directory, or starts afresh when the path is
  absolute; `Path.reroot` appends the normal components only, so that neither
  `..` nor a leading slash can lead out of the directory.
* `Path.isBelow` compares component by component, so `/lib64` is not below
  `/lib`.
* `Path.order` puts paths in the order of their components.
-/

namespace Confinement

/-- A path as it is written. -/
structure Path where
  bytes : Bytes
  deriving DecidableEq, Repr, Inhabited

namespace Path

/-- The byte between two segments. -/
def slash : UInt8 := 0x2F

def dot : Bytes := [0x2E]
def dotdot : Bytes := [0x2E, 0x2E]

/-- The path a text spells. -/
def ofString (s : String) : Path := ⟨Utf8.encode s⟩

instance : Coe String Path := ⟨ofString⟩

/-- A path for display. -/
def display (p : Path) : String := Utf8.lossy p.bytes

/-- The path as text, if it is text throughout. -/
def text? (p : Path) : Option String := Utf8.decode? p.bytes

def isEmpty (p : Path) : Bool := p.bytes.isEmpty

/-- The number of bytes of a path as written. -/
def length (p : Path) : Nat := p.bytes.length

def isAbsolute (p : Path) : Bool := p.bytes.head? = some slash

def endsWithSlash (p : Path) : Bool := p.bytes.getLast? = some slash

/-- The path `/`. -/
def root : Path := ⟨[slash]⟩

/-! ## Components -/

/-- A component of a path: the root, a leading `.`, a `..`, or a name. -/
inductive Component where
  | root
  | here
  | parent
  | normal (name : Bytes)
  deriving DecidableEq

/-- The name of a normal component. -/
def Component.name? : Component → Option Bytes
  | .normal name => some name
  | _ => none

/-- The stretches between the slashes of a path, empty ones included. -/
def segments (p : Path) : List Bytes := p.bytes.splitOn slash

/-- What a segment past the first stands for. -/
def component? (segment : Bytes) : Option Component :=
  if segment = [] ∨ segment = dot then none
  else if segment = dotdot then some .parent
  else some (.normal segment)

/-- The components of a path. -/
def components (p : Path) : List Component :=
  if p.isAbsolute then .root :: p.segments.filterMap component?
  else if p.segments.head? = some dot then .here :: p.segments.filterMap component?
  else p.segments.filterMap component?

/-- The names among the components of a path, in order. -/
def names (p : Path) : List Bytes := p.components.filterMap Component.name?

/-- Paths with the same components. -/
def Same (p q : Path) : Prop := p.components = q.components

instance (p q : Path) : Decidable (p.Same q) := inferInstanceAs (Decidable (_ = _))

/-- `p` equals `q` or lies below it, component by component. -/
def isBelow (p q : Path) : Bool := q.components.isPrefixOf p.components

/-- What remains of `p` below `q`, as components; all of `p` when it does not
lie below `q`. -/
def componentsBelow (p q : Path) : List Component :=
  (q.components.isPrefixOf? p.components).getD p.components

/-! ## Order -/

/-- The order of byte strings: the first difference decides. -/
def bytesLE : Bytes → Bytes → Bool
  | [], _ => true
  | _ :: _, [] => false
  | a :: as, b :: bs => a < b || (a == b && bytesLE as bs)

/-- Roots come first, then `.`, then `..`, then names by their bytes. -/
def Component.order : Component → Component → Ordering
  | .root, .root | .here, .here | .parent, .parent => .eq
  | .root, _ => .lt
  | _, .root => .gt
  | .here, _ => .lt
  | _, .here => .gt
  | .parent, _ => .lt
  | _, .parent => .gt
  | .normal a, .normal b => if a = b then .eq else if bytesLE a b then .lt else .gt

/-- The order of lists of components: the first difference decides. -/
def orderComponents : List Component → List Component → Ordering
  | [], [] => .eq
  | [], _ :: _ => .lt
  | _ :: _, [] => .gt
  | a :: as, b :: bs =>
    match a.order b with
    | .eq => orderComponents as bs
    | o => o

/-- The order of paths by their components. -/
def order (p q : Path) : Ordering := orderComponents p.components q.components

/-- `p` comes no later than `q`. -/
def precedes (p q : Path) : Bool := p.order q != .gt

/-- Paths in order; paths with the same components keep their places. -/
def sort (ps : List Path) : List Path := ps.mergeSort precedes

/-! ## Joining -/

/-- `q` as seen from the directory `p`. -/
def join (p q : Path) : Path :=
  if q.isAbsolute then q
  else if p.isEmpty || p.endsWithSlash then ⟨p.bytes ++ q.bytes⟩
  else ⟨p.bytes ++ slash :: q.bytes⟩

/-- The entry `name` of the directory `p`. -/
def child (p : Path) (name : Bytes) : Path := p.join ⟨name⟩

/-- `q` re-rooted under `p`: the names of `q`, one after the other, below
`p`. -/
def reroot (p q : Path) : Path := q.names.foldl child p

/-! ## The last component -/

/-- The name of the last component, if that is a name. -/
def fileName? (p : Path) : Option Bytes := p.components.getLast?.bind Component.name?

/-- Whether a segment carries no meaning where it stands last. -/
def isIdle (segment : Bytes) : Bool := segment = [] ∨ segment = dot

/-- Segments without the idle ones at the end.  A `.` that begins a relative
path is not idle. -/
def trimIdle (leading : Bool) (segments : List Bytes) : List Bytes :=
  match segments with
  | first :: rest =>
    let rest := (rest.reverse.dropWhile isIdle).reverse
    if rest.isEmpty && isIdle first && (first.isEmpty || !leading) then [] else first :: rest
  | [] => []

/-- The path without its last component; nothing is left of `/` and of the
empty path. -/
def parent? (p : Path) : Option Path :=
  let absolute := p.isAbsolute
  let kept := trimIdle (!absolute) (if absolute then p.segments.drop 1 else p.segments)
  if kept.isEmpty then none
  else
    let above := List.intercalate [slash] (trimIdle (!absolute) kept.dropLast)
    some ⟨if absolute then slash :: above else above⟩

end Path

end Confinement
