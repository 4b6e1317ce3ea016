import Confinement.Proofs.Dependencies.Closure

/-!
# The bound on the depth

Names are followed at most as deep as the tree has names.  No pursuit gets
there: where there is room (`Room`), more depth changes nothing, whatever the
loader answers (`alike_loadNeeded`).  So the pursuit ends because it has no
names left to look at, and the bound could be any larger number
(`run_loadWithin_eq`).
-/

namespace Confinement

namespace Action

variable {σ ε α β : Type}

/-- Begun with the files `fs`, the two actions run alike. -/
def Alike (fs : FileSystem) (a b : Action σ ε α) : Prop :=
  ∀ s : Session σ, s.fs = fs → a.run s = b.run s

section

variable {fs : FileSystem} {a b : Action σ ε α} {f g : α → Action σ ε β} {R : α → Prop}

theorem Alike.refl (a : Action σ ε α) : Alike fs a a := fun _ _ => rfl

/-- Actions are alike if their first steps are, and their second steps are
after any value of the first. -/
theorem Alike.bind (hab : Alike fs a b) (hvalue : Traces fs b (Only (fun _ => True) R))
    (hfg : ∀ x, R x → Alike fs (f x) (g x)) : Alike fs (a >>= f) (b >>= g) := by
  intro s hs
  obtain ⟨calls, hasks, honly⟩ := hvalue s hs
  cases hrun : b.run s with
  | mk result s₁ =>
      have hrun' : a.run s = (result, s₁) := (hab s hs).trans hrun
      rw [hrun] at hasks honly
      cases result with
      | error e => rw [run_bind_of_error hrun, run_bind_of_error hrun']
      | ok x =>
          rw [run_bind_of_ok hrun, run_bind_of_ok hrun']
          exact hfg x honly.1 s₁ (hasks.fs_eq.trans hs)

theorem Alike.files_bind {f g : FileSystem → Action σ ε β} (h : Alike fs (f fs) (g fs)) :
    Alike fs (files >>= f) (files >>= g) := by
  rintro s rfl
  exact h s rfl

end

variable {ld : Loader σ} {fs : FileSystem} {directories : List Path} {path : Path}

/-! ## Names stay seen -/

/-- A name that is looked at only adds to the names seen, if what lies deeper
does so, too. -/
theorem traces_pursue_kept {depth : Nat} {seen : List String}
    (hdeeper : ∀ found visit, seen ⊆ visit.seen →
      Traces fs (loadNeeded ld directories depth found visit)
        (Only (fun _ => True) fun after => seen ⊆ after.seen))
    {visit : Visit} (hvisit : seen ⊆ visit.seen) (name : String) :
    Traces fs (pursue ld directories depth path visit name)
      (Only (fun _ => True) fun after => seen ⊆ after.seen) := by
  -- Whichever way the name goes, no name is forgotten.
  have hadded : seen ⊆ name :: visit.seen := List.Subset.trans hvisit (List.subset_cons_self _ _)
  rw [pursue]
  split
  · exact traces_only_pure hvisit
  · apply (traces_only_isResident trivial).only_bind
    intro mapped _
    cases mapped with
    | true => exact traces_only_pure hadded
    | false =>
        apply Traces.quietly traces_files
        cases findLibrary fs name directories with
        | none =>
            apply Traces.quietly traces_note
            exact traces_only_pure hadded
        | some found =>
            apply (hdeeper found _ hadded).only_bind
            intro after hafter
            apply Traces.quietly traces_note
            apply (traces_only_load trivial).only_bind
            intro unit _
            exact traces_only_pure hafter

theorem traces_loadNeeded_kept {seen : List String} (depth : Nat) (path : Path) (visit : Visit)
    (hvisit : seen ⊆ visit.seen) :
    Traces fs (loadNeeded ld directories depth path visit)
      (Only (fun _ => True) fun after => seen ⊆ after.seen) := by
  induction depth generalizing path visit with
  | zero => exact traces_only_pure hvisit
  | succ depth ih =>
      rw [loadNeeded_succ]
      apply (traces_only_needed trivial).only_bind
      intro names _
      exact traces_only_foldlM (fun name _ visit h => traces_pursue_kept ih h name) hvisit

/-! ## More depth -/

theorem alike_pursue {depth depth' : Nat}
    (hdeeper : ∀ found visit, Room fs directories depth visit.seen →
      Alike fs (loadNeeded ld directories depth' found visit)
        (loadNeeded ld directories depth found visit))
    {visit : Visit} (hroom : Room fs directories (depth + 1) visit.seen) (name : String) :
    Alike fs (pursue ld directories depth' path visit name)
      (pursue ld directories depth path visit name) := by
  rw [pursue, pursue]
  split
  · exact .refl _
  · rename_i hcontains
    have hunseen : name ∉ visit.seen := by simpa using hcontains
    apply (Alike.refl (isResident ld name)).bind (traces_only_isResident trivial)
    intro mapped _
    cases mapped with
    | true => exact .refl _
    | false =>
        apply Alike.files_bind
        cases hfind : findLibrary fs name directories with
        | none => exact .refl _
        | some found =>
            have hbelow := hroom.deeper hunseen (by rw [hfind]; rfl)
            exact (hdeeper found { visit with seen := name :: visit.seen } hbelow).bind
              (traces_loadNeeded_kept depth found _ (List.Subset.refl _)) fun _ _ => .refl _

theorem alike_foldlM_pursue {depth depth' : Nat}
    (hdeeper : ∀ found visit, Room fs directories depth visit.seen →
      Alike fs (loadNeeded ld directories depth' found visit)
        (loadNeeded ld directories depth found visit))
    (names : List String) {visit : Visit} (hroom : Room fs directories (depth + 1) visit.seen) :
    Alike fs (names.foldlM (pursue ld directories depth' path) visit)
      (names.foldlM (pursue ld directories depth path) visit) := by
  induction names generalizing visit with
  | nil => exact .refl _
  | cons name names ih =>
      rw [List.foldlM_cons, List.foldlM_cons]
      have hkept : Traces fs (pursue ld directories depth path visit name)
          (Only (fun _ => True) fun after => visit.seen ⊆ after.seen) :=
        traces_pursue_kept (traces_loadNeeded_kept depth) (List.Subset.refl _) name
      exact (alike_pursue hdeeper hroom name).bind hkept fun after hafter => ih (hroom.mono hafter)

theorem alike_loadNeeded {depth depth' : Nat} (hle : depth ≤ depth') (path : Path) (visit : Visit)
    (hroom : Room fs directories depth visit.seen) :
    Alike fs (loadNeeded ld directories depth' path visit)
      (loadNeeded ld directories depth path visit) := by
  induction depth generalizing depth' path visit with
  | zero => exact absurd hroom Room.not_zero
  | succ depth ih =>
      obtain ⟨depth', rfl⟩ := Nat.exists_eq_add_of_le' (Nat.le_of_add_left_le hle)
      rw [loadNeeded_succ, loadNeeded_succ]
      apply (Alike.refl (needed ld path)).bind (traces_only_needed trivial)
      intro names _
      exact alike_foldlM_pursue (ih (Nat.le_of_succ_le_succ hle)) names hroom

/-- The units opened because `path` needs them, where names are followed at
most `depth` deep. -/
def loadWithin (ld : Loader σ) (path : Path) (directories : List Path) (depth : Nat) :
    Action σ UnitError (List CodeUnit) := closingOnFailure ld do
  return (← loadNeeded ld directories depth path {}).opened

/-- More depth than the tree has names makes no difference. -/
theorem run_loadWithin_eq (ld : Loader σ) (path : Path) (directories : List Path) (s : Session σ)
    {depth : Nat} (h : s.fs.tree.nameCount < depth) :
    (loadWithin ld path directories depth).run s =
      (loadDependencies ld path directories).run s := by
  have halike : Alike s.fs
      (loadNeeded ld directories depth path {} >>= fun visit => pure visit.opened)
      (loadNeeded ld directories (s.fs.tree.nameCount + 1) path {} >>= fun visit =>
        pure visit.opened) :=
    (alike_loadNeeded h path {} (.initial s.fs directories)).bind
      (traces_loadNeeded_kept _ path _ (List.Subset.refl _)) fun _ _ => .refl _
  rw [loadWithin, loadDependencies, closingOnFailure, run_closing, closingOnFailure, run_closing]
  have hfiles : ∀ f : FileSystem → Action σ UnitError (List CodeUnit),
      (files >>= f).run s = (f s.fs).run s := fun _ => rfl
  simp only [hfiles]
  rw [halike s rfl]

end Action

end Confinement
