import Confinement.Proofs.FileSystem.Walk

/-!
# Growing file systems

`Keeps fs fs'` says that all that shows in `fs` shows in `fs'`, for the same
process.  Walks, and the paths read along them, stay as they were.

`Adds new fs fs'` says moreover what may be there that was not: only faces
that `new` allows.  Copies are put together from such steps, each of which
fills one free place (`adds_put`).
-/

namespace Confinement

namespace FileSystem

variable {fs fs' fs'' : FileSystem} {n : Nat} {here l m : Location} {name : Bytes}
  {xs : List Bytes} {mode : Mode} {node : Node} {face : Face}

/-- All that shows in `fs` shows in `fs'`, for the same process. -/
structure Keeps (fs fs' : FileSystem) : Prop where
  root_eq : fs'.root = fs.root
  cwd_eq : fs'.cwd = fs.cwd
  superuser_eq : fs'.superuser = fs.superuser
  look : ∀ l face, fs.tree.look l = some face → fs'.tree.look l = some face

namespace Keeps

theorem refl (fs : FileSystem) : Keeps fs fs := ⟨rfl, rfl, rfl, fun _ _ h => h⟩

theorem trans (h : Keeps fs fs') (h' : Keeps fs' fs'') : Keeps fs fs'' :=
  ⟨h'.root_eq.trans h.root_eq, h'.cwd_eq.trans h.cwd_eq, h'.superuser_eq.trans h.superuser_eq,
    fun l face hl => h'.look l face (h.look l face hl)⟩

theorem permits_eq (h : Keeps fs fs') (right : Right) (mode : Mode) :
    fs'.permits right mode = fs.permits right mode := by
  rw [permits, permits, h.superuser_eq]

theorem start_eq (h : Keeps fs fs') (p : Path) : fs'.start p = fs.start p := by
  rw [start, start, h.root_eq, h.cwd_eq]

theorem exists_at? (h : Keeps fs fs') (hat : fs.tree.at? l = some node) :
    ∃ node', fs'.tree.at? l = some node' ∧ node'.face = node.face :=
  Option.map_eq_some_iff.mp (h.look l node.face (by rw [Node.look, hat]; rfl))

theorem searchable (h : Keeps fs fs') (hs : fs.Searchable l) : fs'.Searchable l := by
  obtain ⟨mode, hlook, hpermits⟩ := hs
  exact ⟨mode, h.look _ _ hlook, by rw [h.permits_eq]; exact hpermits⟩

theorem enters (h : Keeps fs fs') (he : fs.Enters here name) : fs'.Enters here name :=
  ⟨h.searchable he.searchable, he.ne_dot, he.ne_dotdot, he.length_le⟩

end Keeps

/-- A walk stays where all it passes stays. -/
theorem Walk.mono (hw : fs.Walk n here xs l) (h : Keeps fs fs') : fs'.Walk n here xs l := by
  induction hw with
  | done here => exact .done here
  | stay searchable tail ih => exact .stay (h.searchable searchable) ih
  | up searchable tail ih =>
      refine .up (h.searchable searchable) ?_
      rwa [above, h.root_eq]
  | down enters look noLink tail ih => exact .down (h.enters enters) (h.look _ _ look) noLink ih
  | follow enters look ne_nil tail ih =>
      refine .follow (h.enters enters) (h.look _ _ look) ne_nil ?_
      rwa [turn, h.root_eq]

/-- A route goes on where it went. -/
theorem Keeps.route {follow : Bool} {b : Nat} (h : Keeps fs fs')
    (hroute : fs.route follow b here xs = .ok (.taken l node)) :
    ∃ node', fs'.route follow b here xs = .ok (.taken l node') ∧ node'.face = node.face := by
  -- As before, the budget goes down with each link and the steps between them.
  induction b using Nat.strongRecOn generalizing here xs with
  | ind b ihb =>
      induction xs generalizing here with
      | nil =>
          obtain ⟨rfl, hat⟩ := route_nil_eq_ok hroute
          obtain ⟨node', hat', hface⟩ := h.exists_at? hat
          exact ⟨node', route_of_arrived leg_nil hat' b, hface⟩
      | cons step rest ih =>
          have hon := onward fs follow here step rest
          generalize hleg : fs.leg follow here (step :: rest) = leg at hon
          cases hon with
          | failed e =>
              rw [route_of_failed hleg] at hroute
              cases hroute
          | stay searchable =>
              rw [route_congr (leg_of_dot searchable)] at hroute
              rw [route_congr (leg_of_dot (h.searchable searchable))]
              exact ih hroute
          | up searchable =>
              rw [route_congr (leg_of_dotdot searchable)] at hroute
              have habove : fs'.above here = fs.above here := by rw [above, above, h.root_eq]
              rw [route_congr (leg_of_dotdot (h.searchable searchable)), habove]
              exact ih hroute
          | down enters look noLink =>
              rw [route_congr hleg] at hroute
              rw [route_congr (leg_of_look (h.enters enters) (h.look _ _ look) noLink)]
              exact ih hroute
          | link enters look follows =>
              obtain ⟨b, rfl, hne, hroute⟩ := route_turned hleg hroute
              rw [route_of_turned (leg_of_look_link (h.enters enters) (h.look _ _ look) follows)
                hne, turn, h.root_eq]
              exact ihb b (Nat.lt_succ_self b) hroute
          | @last _ target enters look stops =>
              obtain ⟨found, hat, hfound⟩ := Option.map_eq_some_iff.mp look
              obtain ⟨node', hat', hface⟩ := h.exists_at? hat
              rw [route_of_arrived hleg hat] at hroute
              cases hroute
              subst stops
              have hlast := leg_of_look_last (h.enters enters) (by rw [h.look _ _ look]; rfl)
              exact ⟨node', route_of_arrived hlast hat' b, hface⟩
          | free enters look =>
              rw [route_of_free hleg] at hroute
              cases hroute

/-- What is kept, and beyond it only faces that `new` allows. -/
structure Adds (new : Location → Face → Prop) (fs fs' : FileSystem) : Prop
    extends Keeps fs fs' where
  added : ∀ l face, fs.tree.look l = none → fs'.tree.look l = some face → new l face

namespace Adds

variable {new new' : Location → Face → Prop}

theorem refl (new : Location → Face → Prop) (fs : FileSystem) : Adds new fs fs := by
  refine ⟨.refl fs, fun l face hnone hsome => ?_⟩
  rw [hnone] at hsome
  cases hsome

theorem mono (h : Adds new fs fs') (hnew : ∀ l face, new l face → new' l face) :
    Adds new' fs fs' :=
  ⟨h.toKeeps, fun l face hnone hsome => hnew l face (h.added l face hnone hsome)⟩

theorem trans (h : Adds new fs fs') (h' : Adds new fs' fs'') : Adds new fs fs'' := by
  refine ⟨h.toKeeps.trans h'.toKeeps, fun l face hnone hsome => ?_⟩
  cases hmid : fs'.tree.look l with
  | none => exact h'.added l face hmid hsome
  | some face' =>
      rw [h'.look l face' hmid] at hsome
      exact Option.some.inj hsome ▸ h.added l face' hnone hmid

theorem look_eq (h : Adds new fs fs') (hl : ∀ face, ¬ new l face) :
    fs'.tree.look l = fs.tree.look l := by
  cases hlook : fs.tree.look l with
  | some face => exact h.look l face hlook
  | none =>
      rw [Option.eq_none_iff_forall_ne_some]
      exact fun face hsome => hl face (h.added l face hlook hsome)

end Adds

/-! ## One node put in a free place -/

theorem look_eq_none_below (hfree : fs.tree.look l = none) {m : Location} (hlm : l <+: m) :
    fs.tree.look m = none := by
  by_cases heq : l = m
  · exact heq ▸ hfree
  · by_contra hsome
    obtain ⟨face, hface⟩ := Option.ne_none_iff_exists'.mp hsome
    obtain ⟨mode, hmode⟩ := Node.exists_directory_of_lt (by rw [hface]; rfl) hlm heq
    rw [hfree] at hmode
    cases hmode

theorem keeps_put (hplace : fs.tree.HasPlace l) (hfree : fs.tree.look l = none) (x : Node) :
    Keeps fs (fs.put l x) := by
  refine ⟨rfl, rfl, rfl, fun m face hm => ?_⟩
  show (fs.tree.put l x).look m = some face
  rw [Node.look_put_of_not_prefix hplace x ?_, hm]
  intro hlm
  by_cases heq : l = m
  · rw [heq, hm] at hfree
    cases hfree
  · obtain ⟨mode, hmode⟩ := Node.exists_directory_of_lt (by rw [hm]; rfl) hlm heq
    rw [hmode] at hfree
    cases hfree

/-- A node with nothing below it put in a free place is all that is new. -/
theorem adds_put (hplace : fs.tree.HasPlace l) (hfree : fs.tree.look l = none) {x : Node}
    (hleaf : x.entries = []) : Adds (fun m face => m = l ∧ face = x.face) fs (fs.put l x) := by
  refine ⟨keeps_put hplace hfree x, fun m face hnone hsome => ?_⟩
  have hput : (fs.put l x).tree.look m = (fs.tree.put l x).look m := rfl
  rw [hput, Node.look_put hplace] at hsome
  split at hsome
  · rename_i hlm
    obtain ⟨rest, rfl⟩ := hlm
    rw [List.drop_left] at hsome
    cases rest with
    | nil => exact ⟨List.append_nil l, (Option.some.inj hsome).symm⟩
    | cons name rest => simp [Node.look, Node.at?, hleaf] at hsome
  · rw [hnone] at hsome
    cases hsome

theorem look_put_self (hplace : fs.tree.HasPlace l) (x : Node) :
    (fs.put l x).tree.look l = some x.face := by
  have hput : (fs.put l x).tree.look l = (fs.tree.put l x).look l := rfl
  rw [hput, Node.look_put hplace, if_pos (List.prefix_refl l), List.drop_length]
  rfl

end FileSystem

end Confinement
