import Confinement.Invocation

/-!
# Names already bound

A registry binds module names to the objects they came from; the first binding
of a name stays.  The target may not bear a bound name, as the object bound
first would answer for it.

The host's own objects are read from a table of memory mappings, one a line:
five columns and, for a mapping backed by a file, its path.
-/

namespace Confinement

/-- Module names with the objects they are bound to, oldest first. -/
structure Registry where
  bindings : List (String × Path) := []
  deriving Inhabited

namespace Registry

/-- The object bound to a name. -/
def originOf? (r : Registry) (name : String) : Option Path := r.bindings.lookup name

/-- The registry with a name bound, if it was free. -/
def register (r : Registry) (name : String) (origin : Path) : Registry :=
  if (r.originOf? name).isSome then r else ⟨r.bindings ++ [(name, origin)]⟩

/-- A name that is bound stays bound to the same object. -/
theorem originOf?_register_of_isSome {r : Registry} {name : String}
    (h : (r.originOf? name).isSome) (other : String) (origin : Path) :
    (r.register other origin).originOf? name = r.originOf? name := by
  unfold register
  split
  · rfl
  · obtain ⟨path, hpath⟩ := Option.isSome_iff_exists.1 h
    simp only [originOf?] at hpath ⊢
    rw [List.lookup_append, hpath, Option.some_or]

/-- A free name is bound to what is offered for it. -/
theorem originOf?_register_of_isNone {r : Registry} {name : String}
    (h : r.originOf? name = none) (origin : Path) :
    (r.register name origin).originOf? name = some origin := by
  simp only [register, h, Option.isSome_none]
  simp only [originOf?] at h ⊢
  simp [List.lookup_append, h]

def size (r : Registry) : Nat := r.bindings.length

/-- The path in a line of the table of mappings. -/
def mappedPath? (line : String) : Option Path :=
  match (Text.words line)[5]? with
  | some path => if path.toList.head? = some '/' then some (.ofString path) else none
  | none => none

/-- The registry with the object of one mapping bound to its module name. -/
def registerMapping (r : Registry) (line : String) : Registry :=
  match mappedPath? line with
  | some path =>
    match moduleName? path with
    | some name => r.register name path
    | none => r
  | none => r

/-- The registry with every mapped object bound to its module name. -/
def registerMappings (r : Registry) (table : String) : Registry :=
  (Text.lines table).foldl registerMapping r

end Registry

end Confinement
