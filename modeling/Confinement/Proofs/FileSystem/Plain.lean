import Confinement.Proofs.FileSystem.Finding

/-!
# Trees without links

Where no link stands, the turns of a path say where it leads: a name goes down,
`..` goes up, and at the root it stays there (`placeOf`).  Nothing is found
under the path anywhere else (`eq_placeOf_of_locate`).

A path re-rooted below a directory goes down its names alone.  With that
directory for a root it takes each `..` too, and the two readings agree exactly
when every `..` comes before the first name, where it leads nowhere
(`placeOf_eq_iff`).
-/

namespace Confinement

/-- Once a path has taken a name it takes no `..`. -/
def Path.ClimbsFirst (p : Path) : Prop := p.turns.dropWhile (· = Path.dotdot) = p.names

instance (p : Path) : Decidable p.ClimbsFirst := inferInstanceAs (Decidable (_ = _))

namespace FileSystem

variable {fs : FileSystem} {p q : Path} {n : Nat} {here d l : Location} {xs turns : List Bytes}

/-- No symbolic link is in the tree. -/
def Plain (fs : FileSystem) : Prop := ∀ l target, fs.tree.look l ≠ some (.link target)

theorem plain_of_faces (h : ∀ e ∈ fs.tree.faces, ∀ target, e.2 ≠ .link target) : fs.Plain :=
  fun l target hlook => h (l, .link target) (Node.mem_faces hlook) target rfl

/-- Where a turn leads from a directory. -/
def move (fs : FileSystem) (here : Location) (turn : Bytes) : Location :=
  if turn = Path.dotdot then fs.above here else here ++ [turn]

/-- The place that a path spells. -/
def placeOf (fs : FileSystem) (p : Path) : Location := p.turns.foldl fs.move (fs.start p)

theorem move_dotdot (fs : FileSystem) (here : Location) :
    fs.move here Path.dotdot = fs.above here :=
  if_pos rfl

theorem move_name {turn : Bytes} (h : turn ≠ Path.dotdot) : fs.move here turn = here ++ [turn] :=
  if_neg h

theorem above_root (fs : FileSystem) : fs.above fs.root = fs.root := if_pos rfl

/-! ## What a walk comes to -/

/-- A walk that meets no link ends where its turns say. -/
theorem Walk.eq_foldl_move (hplain : fs.Plain) (h : fs.Walk n here xs l) :
    l = (xs.filter (· ≠ Path.dot)).foldl fs.move here := by
  induction h with
  | done => rfl
  | stay searchable tail ih =>
      rw [List.filter_cons_of_neg (by simp)]
      exact ih
  | up searchable tail ih =>
      rw [List.filter_cons_of_pos (by decide), List.foldl_cons, move_dotdot]
      exact ih
  | down enters look noLink tail ih =>
      rw [List.filter_cons_of_pos (by simpa using enters.ne_dot), List.foldl_cons,
        move_name enters.ne_dotdot]
      exact ih
  | follow enters look => exact absurd look (hplain _ _)

theorem eq_placeOf_of_locate (hplain : fs.Plain) (h : fs.locate p = .ok l) : l = fs.placeOf p := by
  obtain ⟨node, hfind⟩ := locate_eq_ok_iff.mp h
  obtain ⟨-, ⟨n, -, hwalk⟩, -⟩ := find_true_eq_ok_iff.mp hfind
  exact hwalk.eq_foldl_move hplain

/-! ## Two readings of a path -/

theorem foldl_move_names (hnames : Path.dotdot ∉ turns) :
    turns.foldl fs.move here = here ++ turns := by
  induction turns generalizing here with
  | nil => exact (List.append_nil here).symm
  | cons turn turns ih =>
      rw [List.mem_cons, not_or] at hnames
      rw [List.foldl_cons, move_name (Ne.symm hnames.1), ih hnames.2, List.append_assoc]
      rfl

theorem placeOf_reroot (fs : FileSystem) (p q : Path) :
    fs.placeOf (p.reroot q) = fs.placeOf p ++ q.names := by
  have hnames : Path.dotdot ∉ q.names := fun hmem => (Path.isName_of_mem_names hmem).ne_dotdot rfl
  rw [placeOf, Path.turns_reroot, List.foldl_append, foldl_move_names hnames, start,
    Path.isAbsolute_reroot]
  rfl

/-- Turns lead down no further than there are names among them. -/
theorem length_foldl_move_le (fs : FileSystem) (here : Location) (turns : List Bytes) :
    (turns.foldl fs.move here).length ≤ here.length + (turns.filter (· ≠ Path.dotdot)).length := by
  induction turns generalizing here with
  | nil => exact Nat.le_refl _
  | cons turn turns ih =>
      have htail := ih (fs.move here turn)
      by_cases hturn : turn = Path.dotdot
      · subst hturn
        have habove : (fs.above here).length ≤ here.length := by
          unfold above
          split
          · exact Nat.le_refl _
          · simp
        rw [List.foldl_cons, List.filter_cons_of_neg (by simp), move_dotdot] at *
        omega
      · rw [move_name hturn, List.length_append, List.length_singleton] at htail
        rw [List.foldl_cons, move_name hturn, List.filter_cons_of_pos (by simpa using hturn),
          List.length_cons]
        omega

/-- Below the root each `..` leads up, and what it takes away no name brings
back. -/
theorem foldl_move_eq_append_iff (hroot : fs.root <+: here) (hne : here ≠ fs.root) :
    turns.foldl fs.move here = here ++ turns.filter (· ≠ Path.dotdot) ↔ Path.dotdot ∉ turns := by
  induction turns generalizing here with
  | nil => simp
  | cons turn turns ih =>
      by_cases hturn : turn = Path.dotdot
      · subst hturn
        refine iff_of_false (fun heq => ?_) (fun hnot => hnot List.mem_cons_self)
        -- The place reached is too short: one name was taken back, and none is left to replace it.
        have hle := length_foldl_move_le fs (fs.above here) turns
        have hnil : here ≠ [] := by
          rintro rfl
          exact hne (List.prefix_nil.mp hroot).symm
        have hshort : (fs.above here).length + 1 = here.length := by
          rw [above, if_neg hne, List.length_dropLast]
          have := List.length_pos_iff.mpr hnil
          omega
        rw [List.foldl_cons, move_dotdot, List.filter_cons_of_neg (by simp)] at heq
        rw [heq, List.length_append] at hle
        omega
      · -- Behind a name the place is below the root for good.
        have hbelow : here ++ [turn] ≠ fs.root := by
          intro heq
          have hle := hroot.length_le
          rw [← heq, List.length_append, List.length_singleton] at hle
          omega
        have hmem : Path.dotdot ∉ turn :: turns ↔ Path.dotdot ∉ turns := by
          simp [Ne.symm hturn]
        rw [List.foldl_cons, move_name hturn, List.filter_cons_of_pos (by simpa using hturn),
          List.append_cons here turn (turns.filter _),
          ih (hroot.trans (List.prefix_append _ _)) hbelow, hmem]

theorem filter_ne_dotdot_eq_self_iff :
    turns = turns.filter (· ≠ Path.dotdot) ↔ Path.dotdot ∉ turns := by
  rw [eq_comm, List.filter_eq_self]
  constructor
  · intro h hmem
    simpa using h _ hmem
  · intro h turn hturn
    have hne : turn ≠ Path.dotdot := fun heq => h (heq ▸ hturn)
    simpa using hne

/-- At the root a `..` leads nowhere; after the first name it does. -/
theorem foldl_move_root_eq_iff :
    turns.foldl fs.move fs.root = fs.root ++ turns.filter (· ≠ Path.dotdot) ↔
      turns.dropWhile (· = Path.dotdot) = turns.filter (· ≠ Path.dotdot) := by
  induction turns with
  | nil => simp
  | cons turn turns ih =>
      by_cases hturn : turn = Path.dotdot
      · subst hturn
        rw [List.foldl_cons, move_dotdot, above_root, List.filter_cons_of_neg (by simp),
          List.dropWhile_cons_of_pos (by simp), ih]
      · have hbelow : fs.root ++ [turn] ≠ fs.root := by simp
        rw [List.foldl_cons, move_name hturn, List.filter_cons_of_pos (by simpa using hturn),
          List.append_cons fs.root turn (turns.filter _),
          foldl_move_eq_append_iff (List.prefix_append _ _) hbelow,
          List.dropWhile_cons_of_neg (by simpa using hturn), List.cons.injEq,
          filter_ne_dotdot_eq_self_iff]
        exact (and_iff_right rfl).symm

/-- A path read from a directory as its root leads to where it leads when it is
re-rooted there, if and only if every `..` in it comes before the first name. -/
theorem placeOf_eq_iff (hstart : fs.start p = fs.root) :
    fs.placeOf p = fs.root ++ p.names ↔ p.ClimbsFirst := by
  rw [placeOf, hstart, Path.ClimbsFirst, Path.names_eq]
  exact foldl_move_root_eq_iff

end FileSystem

end Confinement
