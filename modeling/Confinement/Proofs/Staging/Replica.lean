import Mathlib.Algebra.BigOperators.Group.List.Basic
import Confinement.Proofs.FileSystem.Making
import Confinement.Staging

/-!
# Copies of trees

A place holds the copy of a tree if it shows what the tree shows, location by
location (`CopyOf`): directories and links as they are, files with their bytes
and with the mode that writing leaves them, and no pipes.  A superuser's copies
keep their modes as they are.  What is copied is counted by kind (`Node.tally`),
so trees that look the same have the same copies and the same tally.
-/

namespace Confinement

open FileSystem

variable {fs fs' : FileSystem} {n x : Node} {l lt : Location} {name : Bytes} {mode : Mode}
  {es : Entries} {face : Face}

/-! ## Tallies -/

namespace Tally

instance : Add Tally :=
  ⟨fun t u => ⟨t.directories + u.directories, t.files + u.files, t.links + u.links⟩⟩

instance : Zero Tally := ⟨{}⟩

theorem add_def (t u : Tally) :
    t + u = ⟨t.directories + u.directories, t.files + u.files, t.links + u.links⟩ := rfl

theorem zero_def : (0 : Tally) = ⟨0, 0, 0⟩ := rfl

instance : AddCommMonoid Tally where
  add_assoc t u v := by simp only [add_def, Nat.add_assoc]
  zero_add t := by simp only [add_def, zero_def, Nat.zero_add]
  add_zero t := by simp only [add_def, zero_def, Nat.add_zero]
  add_comm t u := by simp only [add_def, Nat.add_comm]
  nsmul := nsmulRec

end Tally

/-- What the copy of a node counts as; a pipe is not copied. -/
def Face.tally : Face → Tally
  | .directory _ => { directories := 1 }
  | .file .. => { files := 1 }
  | .link _ => { links := 1 }
  | .pipe _ => {}

/-- What the copy of a tree counts as. -/
def Node.tally (n : Node) : Tally := (n.faces.map fun e => e.2.tally).sum

theorem Node.tally_directory (mode : Mode) (es : Entries) :
    (Node.directory mode es).tally = { directories := 1 } + (es.map fun e => e.2.tally).sum := by
  rw [tally, faces, List.map_cons, List.sum_cons, entryFaces_eq_flatMap, List.map_flatMap,
    List.flatMap_def, List.sum_flatten, List.map_map]
  simp only [Function.comp_def, List.map_map]
  rfl

theorem Node.tally_leaf (h : ¬ n.isDirectory) : n.tally = n.face.tally := by
  cases n with
  | directory mode es => exact absurd rfl h
  | file | link | pipe => exact add_zero _

theorem Node.tally_eq_of_look (hn : n.WellFormed) (hx : x.WellFormed)
    (h : ∀ l, n.look l = x.look l) : n.tally = x.tally :=
  ((faces_perm hn hx h).map _).sum_eq

/-- What the copy of what a path names counts as. -/
def FileSystem.tallyOf (fs : FileSystem) (p : Path) : Tally :=
  match fs.lstat p with
  | .ok node => node.tally
  | .error _ => 0

/-! ## Copies -/

/-- What the copy of a node shows; a pipe is not copied. -/
def Face.copied (superuser : Bool) : Face → Option Face
  | .file mode content => some (.file (copiedMode superuser mode content) content)
  | .link target => some (.link target)
  | .directory mode => some (.directory mode)
  | .pipe _ => none

/-- At a place and below it stands the copy of a tree and nothing else. -/
def CopyOf (fs : FileSystem) (lt : Location) (n : Node) : Prop :=
  ∀ names, fs.tree.look (lt ++ names) = (n.look names).bind (Face.copied fs.superuser)

namespace CopyOf

theorem of_look (h : CopyOf fs lt n) (hx : ∀ names, x.look names = n.look names) :
    CopyOf fs lt x := by
  intro names
  rw [hx]
  exact h names

theorem mono (h : CopyOf fs lt n) (hsuper : fs'.superuser = fs.superuser)
    (hsame : ∀ m, lt <+: m → fs'.tree.look m = fs.tree.look m) : CopyOf fs' lt n := by
  intro names
  rw [hsame _ (List.prefix_append lt names), hsuper]
  exact h names

end CopyOf

theorem look_leaf_cons (h : ¬ n.isDirectory) (key : Bytes) (names : List Bytes) :
    n.look (key :: names) = none := by
  cases n with
  | directory mode es => exact absurd rfl h
  | file | link | pipe => rfl

/-- A place filled with the copy of what is no directory. -/
theorem copyOf_fills (h : Fills fs lt face fs') (hleaf : ¬ n.isDirectory)
    (hcopied : n.face.copied fs.superuser = some face) : CopyOf fs' lt n := by
  intro names
  rw [h.superuser_eq]
  cases names with
  | nil =>
      rw [List.append_nil, h.look_self]
      exact hcopied.symm
  | cons key names =>
      rw [h.look_below (List.prefix_append _ _) (by simp), look_leaf_cons hleaf]
      rfl

theorem copyOf_pipe (hfree : fs.tree.look lt = none) : CopyOf fs lt (.pipe mode) := by
  intro names
  rw [look_eq_none_below hfree (List.prefix_append lt names)]
  cases names <;> rfl

/-- The copy of a directory is put together from those of its entries. -/
theorem copyOf_directory (hn : (Node.directory mode es).WellFormed)
    (hdir : fs.tree.look lt = some (.directory mode))
    (hentries : ∀ e ∈ es, CopyOf fs (lt ++ [e.1]) e.2)
    (hothers : ∀ key, (∀ e ∈ es, e.1 ≠ key) → fs.tree.look (lt ++ [key]) = none) :
    CopyOf fs lt (.directory mode es) := by
  intro names
  cases names with
  | nil =>
      rw [List.append_nil, hdir]
      rfl
  | cons key names =>
      have hsource : (Node.directory mode es).look (key :: names) =
          (es.lookup key).bind fun c => c.look names := by
        rw [Node.look, Node.at?, Node.entries, Option.map_bind]
        rfl
      rw [hsource, List.append_cons]
      -- Below a name that the source has the copy of that entry tells; below any other both sides
      -- have nothing.
      cases hlookup : es.lookup key with
      | some c => exact hentries (key, c) (Node.mem_of_lookup hlookup) names
      | none =>
          have hfree := hothers key fun e he heq => by
            have hfound := (Node.lookup_eq_some_iff_mem hn).mpr he
            rw [heq, hlookup] at hfound
            cases hfound
          rw [look_eq_none_below hfree (List.prefix_append _ _)]
          rfl

end Confinement
