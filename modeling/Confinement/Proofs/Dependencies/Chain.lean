import Confinement.Dependencies
import Confinement.Proofs.Session.Trace
import Mathlib.Logic.Relation

/-!
# Chains of needed names

An object is linked to another if it may need a name that may not be mapped,
and the name leads to the other.  What is opened on account of an object is
opened for all to use, and a chain of such links leads to it
(`traces_loadNeeded`).  This holds of every loader, whether or not its answers
change from one question to the next.
-/

namespace Confinement

open Relation

variable {σ : Type}

namespace Loader

variable (ld : Loader σ) (fs : FileSystem)

/-- The loader may answer that the object at `path` needs `name`. -/
def Lists (path : Path) (name : String) : Prop :=
  ∃ st names, (ld.needed path fs st).1 = .ok names ∧ name ∈ names

/-- The loader may answer that no object called `name` is mapped. -/
def Lacks (name : String) : Prop := ∃ st, (ld.isResident name fs st).1 = false

/-- The object at `path` may have the one at `found` opened by its name. -/
def Link (directories : List Path) (path found : Path) : Prop :=
  ∃ name, ld.Lists fs path name ∧ ld.Lacks fs name ∧ findLibrary fs name directories = some found

/-- The questions to which the needs of the object at `path` may lead. -/
inductive Pursued (directories : List Path) (path : Path) : Call → Prop
  | needed {q : Path} : ReflTransGen (ld.Link fs directories) path q →
      Pursued directories path (.needed q)
  | isResident {name : String} : Pursued directories path (.isResident name)
  | load {q : Path} : TransGen (ld.Link fs directories) path q →
      Pursued directories path (.load q .global)

variable {ld fs} {directories : List Path} {path found : Path} {call : Call}

/-- What is pursued for an object is pursued for those that link to it. -/
theorem Pursued.of_link (hlink : ld.Link fs directories path found)
    (h : ld.Pursued fs directories found call) : ld.Pursued fs directories path call := by
  cases h with
  | needed hchain => exact .needed (.head hlink hchain)
  | isResident => exact .isResident
  | load hchain => exact .load (.head hlink hchain)

end Loader

namespace Action

variable {ld : Loader σ} {fs : FileSystem} {directories : List Path} {path : Path}

/-- A needed name looked at: the step that is repeated for each of them. -/
def pursue (ld : Loader σ) (directories : List Path) (depth : Nat) (path : Path) (visit : Visit)
    (name : String) : Action σ UnitError Visit := do
  if visit.seen.contains name then return visit
  let visit := { visit with seen := name :: visit.seen }
  if ← isResident ld name then return visit
  match findLibrary (← files) name directories with
  | none =>
    debug (name ++ " needed by " ++ path.display ++ " is not on the search paths")
    return visit
  | some found =>
    let visit ← loadNeeded ld directories depth found visit
    debug ("Loading " ++ name ++ " for " ++ path.display ++ " from " ++ found.display)
    let unit ← load ld found .global
    return { visit with opened := visit.opened ++ [unit] }

theorem loadNeeded_succ (depth : Nat) (visit : Visit) :
    loadNeeded ld directories (depth + 1) path visit =
      needed ld path >>= fun names => names.foldlM (pursue ld directories depth path) visit :=
  rfl

/-- Whatever the depth, only links are followed, and what they lead to is
opened for all to use. -/
theorem traces_loadNeeded (depth : Nat) (path : Path) (visit : Visit) :
    Traces fs (loadNeeded ld directories depth path visit)
      (Only (ld.Pursued fs directories path) fun _ => True) := by
  induction depth generalizing path visit with
  | zero => exact traces_only_pure trivial
  | succ depth ih =>
      rw [loadNeeded_succ]
      apply (traces_only_needed (.needed .refl)).only_bind
      rintro names ⟨st, hnames⟩
      refine traces_only_foldlM (fun name hname visit _ => ?_) trivial
      rw [pursue]
      split
      · exact traces_only_pure trivial
      · apply (traces_only_isResident .isResident).only_bind
        rintro mapped ⟨st', hmapped⟩
        cases mapped with
        | true => exact traces_only_pure trivial
        | false =>
            apply Traces.quietly traces_files
            cases hfind : findLibrary fs name directories with
            | none =>
                apply Traces.quietly traces_note
                exact traces_only_pure trivial
            | some found =>
                -- Only a listed name that is not mapped and is found is followed, and that is a
                -- link.
                have hlink : ld.Link fs directories path found :=
                  ⟨name, ⟨st, names, hnames, hname⟩, ⟨st', hmapped⟩, hfind⟩
                have hpursued := (ih found { visit with seen := name :: visit.seen }).only_mono
                  fun call hcall => hcall.of_link hlink
                apply hpursued.only_bind
                intro visit' _
                apply Traces.quietly traces_note
                apply (traces_only_load (.load (.single hlink))).only_bind
                intro unit _
                exact traces_only_pure trivial

theorem traces_loadDependencies (path : Path) :
    Traces fs (loadDependencies ld path directories)
      (Only (ld.Pursued fs directories path) fun _ => True) := by
  apply Traces.closing
  apply Traces.quietly traces_files
  apply (traces_loadNeeded _ path {}).only_bind
  intro visit _
  exact traces_only_pure trivial

end Action

end Confinement
