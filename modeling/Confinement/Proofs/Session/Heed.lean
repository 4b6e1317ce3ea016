import Confinement.Proofs.Session.Answers

/-!
# Actions that stop where an answer stops them

`Loader.stop?` says of a question, asked in a state of the loader, how the
answer to it stops an action that heeds it: by a failure, or because the process
does not come back from it.  `Heeds` says of an action that it goes on as long
as nothing stops it, and stops for the reason of the question that was asked
last.  Nothing is assumed of the loader, and nothing is said of what the action
makes of its answers.  The questions themselves are such actions, and so is what
is put together from such actions (`Heeds.bind`, `heeds_foldlM`).
-/

namespace Confinement

variable {σ ε α β : Type}

namespace Loader

/-- How the answer to a question stops the action that asked it, if it does.  An
entry point belongs to the object with the number `handle`, and sees `env`. -/
def stop? (ld : Loader σ) (handle : Nat) (env : Environment) (fs : FileSystem) (st : σ) :
    Call → Option (Stop UnitError)
  | .load path binding => (fault? (ld.load path binding fs st).1).map .failed
  | .needed path => (fault? (ld.needed path fs st).1).map .failed
  | .isResident _ => none
  | .invoke origin symbol => fault? (ld.invoke ⟨origin, handle⟩ symbol env fs st).1.result

variable (ld : Loader σ) (handle : Nat) (env : Environment) (fs : FileSystem)

/-- The questions, asked one after the other, stop nothing. -/
def Passes : σ → List Call → Prop
  | _, [] => True
  | st, call :: calls => ld.stop? handle env fs st call = none ∧ Passes (ld.next fs st call) calls

/-- The questions, asked one after the other, stop nothing but for the last one,
which stops with `stop`. -/
def StopsAt (st : σ) (calls : List Call) (last : Call) (stop : Stop UnitError) : Prop :=
  ∃ earlier, calls = earlier ++ [last] ∧ ld.Passes handle env fs st earlier ∧
    ld.stop? handle env fs (earlier.foldl (ld.next fs) st) last = some stop

variable {ld handle env fs} {st : σ} {calls calls' : List Call} {last last' : Call}
  {stop stop' : Stop UnitError}

theorem passes_append : ld.Passes handle env fs st (calls ++ calls') ↔
    ld.Passes handle env fs st calls ∧
      ld.Passes handle env fs (calls.foldl (ld.next fs) st) calls' := by
  induction calls generalizing st with
  | nil => simp [Passes]
  | cons call calls ih => simp only [List.cons_append, Passes, List.foldl_cons, ih, and_assoc]

/-- After questions that stop nothing the stop lies in those that follow. -/
theorem StopsAt.append (hcalls : ld.Passes handle env fs st calls)
    (h : ld.StopsAt handle env fs (calls.foldl (ld.next fs) st) calls' last stop) :
    ld.StopsAt handle env fs st (calls ++ calls') last stop := by
  obtain ⟨earlier, rfl, hearlier, hstop⟩ := h
  refine ⟨calls ++ earlier, (List.append_assoc ..).symm, passes_append.mpr ⟨hcalls, hearlier⟩, ?_⟩
  rw [List.foldl_append]
  exact hstop

theorem StopsAt.mem (h : ld.StopsAt handle env fs st calls last stop) : last ∈ calls := by
  obtain ⟨earlier, rfl, -⟩ := h
  exact List.mem_append_right earlier List.mem_cons_self

theorem StopsAt.not_passes (h : ld.StopsAt handle env fs st calls last stop) :
    ¬ ld.Passes handle env fs st calls := by
  obtain ⟨earlier, rfl, -, hstop⟩ := h
  intro hpasses
  have hlast := (passes_append.mp hpasses).2.1
  rw [hstop] at hlast
  cases hlast

theorem StopsAt.unique (h : ld.StopsAt handle env fs st calls last stop)
    (h' : ld.StopsAt handle env fs st calls last' stop') : last = last' ∧ stop = stop' := by
  obtain ⟨earlier, rfl, -, hstop⟩ := h
  obtain ⟨earlier', heq, -, hstop'⟩ := h'
  obtain ⟨rfl, hlast⟩ := List.append_inj' heq rfl
  obtain rfl := List.singleton_inj.mp hlast
  exact ⟨rfl, Option.some_inj.mp (hstop.symm.trans hstop')⟩

end Loader

namespace Action

/-- A run that asked `calls` from the state `st` on went on while nothing stopped
it, and stopped for the reason of the last question. -/
def Settled (ld : Loader σ) (handle : Nat) (env : Environment) (fs : FileSystem) (st : σ)
    (calls : List Call) : Except (Stop UnitError) α × Session σ → Prop
  | (.ok _, s) => ld.Passes handle env fs st calls ∧ s.loader = calls.foldl (ld.next fs) st
  | (.error stop, _) => ∃ last, ld.StopsAt handle env fs st calls last stop

/-- Begun with the files `fs`, the action asks questions and does nothing else,
and is settled by them. -/
def Heeds (ld : Loader σ) (handle : Nat) (env : Environment) (fs : FileSystem)
    (a : Action σ UnitError α) : Prop :=
  ∀ s : Session σ, s.fs = fs → ∃ calls, Asks calls s (a.run s).2 ∧
    Settled ld handle env fs s.loader calls (a.run s)

variable {ld : Loader σ} {handle : Nat} {env : Environment} {fs : FileSystem}

theorem Settled.append {st : σ} {calls calls' : List Call}
    {outcome : Except (Stop UnitError) α × Session σ}
    (hcalls : ld.Passes handle env fs st calls)
    (h : Settled ld handle env fs (calls.foldl (ld.next fs) st) calls' outcome) :
    Settled ld handle env fs st (calls ++ calls') outcome := by
  obtain ⟨stop | x, s⟩ := outcome
  · obtain ⟨last, hstops⟩ := h
    exact ⟨last, hstops.append hcalls⟩
  · refine ⟨Loader.passes_append.mpr ⟨hcalls, h.1⟩, ?_⟩
    rw [List.foldl_append]
    exact h.2

theorem heeds_pure {x : α} : Heeds ld handle env fs (pure x) := by
  intro s _
  exact ⟨[], .refl s, trivial, rfl⟩

theorem Heeds.bind {a : Action σ UnitError α} {f : α → Action σ UnitError β}
    (ha : Heeds ld handle env fs a) (hf : ∀ x, Heeds ld handle env fs (f x)) :
    Heeds ld handle env fs (a >>= f) := by
  intro s hs
  obtain ⟨calls, hasks, hresult⟩ := ha s hs
  cases hrun : a.run s with
  | mk result s₁ =>
      rw [hrun] at hasks hresult
      cases result with
      | error stop =>
          rw [run_bind_of_error hrun]
          exact ⟨calls, hasks, hresult⟩
      | ok x =>
          obtain ⟨hpasses, hloader⟩ := hresult
          obtain ⟨calls', hasks', hresult'⟩ := hf x s₁ (hasks.fs_eq.trans hs)
          rw [run_bind_of_ok hrun]
          rw [hloader] at hresult'
          exact ⟨calls ++ calls', hasks.trans hasks', hresult'.append hpasses⟩

theorem Heeds.files_bind {f : FileSystem → Action σ UnitError α}
    (h : Heeds ld handle env fs (f fs)) : Heeds ld handle env fs (files >>= f) := by
  rintro s rfl
  exact h s rfl

theorem heeds_note {lines : Log} : Heeds ld handle env fs (note lines) := by
  intro s _
  exact ⟨[], Quiet.asks ⟨_, rfl⟩, trivial, rfl⟩

theorem heeds_foldlM {f : β → α → Action σ UnitError β}
    (hf : ∀ b x, Heeds ld handle env fs (f b x)) (xs : List α) (b : β) :
    Heeds ld handle env fs (xs.foldlM f b) := by
  induction xs generalizing b with
  | nil => exact heeds_pure
  | cons x xs ih =>
      rw [List.foldlM_cons]
      exact (hf b x).bind ih

/-- What is closed after a failure was opened before it. -/
theorem Heeds.closingOnFailure {a : Action σ UnitError α} (h : Heeds ld handle env fs a) :
    Heeds ld handle env fs (closingOnFailure ld a) := by
  intro s hs
  obtain ⟨calls, hasks, hresult⟩ := h s hs
  refine ⟨calls, ?_, ?_⟩
  · obtain ⟨_, _, log, hafter⟩ := hasks
    obtain ⟨loader, opened, hrun⟩ := exists_run_closing ld (!·.isOk) a s
    rw [Action.closingOnFailure, hrun, hafter]
    exact ⟨loader, opened, log, rfl⟩
  · rw [Action.closingOnFailure, run_closing]
    cases hrun : a.run s with
    | mk result after =>
        rw [hrun] at hresult
        cases result <;> exact hresult

/-! ## Questions -/

theorem heeds_needed {path : Path} : Heeds ld handle env fs (needed ld path) := by
  rintro s rfl
  rw [run_needed]
  refine ⟨[.needed path], ⟨_, s.opened, s.log, rfl⟩, ?_⟩
  cases hneeded : (ld.needed path s.fs s.loader).1 with
  | error e => exact ⟨_, [], rfl, trivial, by simp [Loader.stop?, hneeded, fault?]⟩
  | ok names => exact ⟨⟨by simp [Loader.stop?, hneeded, fault?], trivial⟩, rfl⟩

theorem heeds_isResident {name : String} : Heeds ld handle env fs (isResident ld name) := by
  rintro s rfl
  rw [run_isResident]
  exact ⟨[.isResident name], ⟨_, s.opened, s.log, rfl⟩, ⟨rfl, trivial⟩, rfl⟩

theorem heeds_load {path : Path} {binding : Binding} :
    Heeds ld handle env fs (load ld path binding) := by
  rintro s rfl
  obtain ⟨s', hrun, hasks, hloader⟩ := exists_run_load ld path binding s
  rw [hrun]
  refine ⟨[.load path binding], hasks, ?_⟩
  cases hload : (ld.load path binding s.fs s.loader).1 with
  | error e => exact ⟨_, [], rfl, trivial, by simp [Loader.stop?, hload, fault?]⟩
  | ok handle => exact ⟨⟨by simp [Loader.stop?, hload, fault?], trivial⟩, hloader⟩

end Action

end Confinement
