import Confinement.Proofs.Outcome
import Confinement.Session

/-!
# Actions that succeed

An action with a result is taken apart down to the elementary actions, of
which each says what it changes.  Log lines change nothing but the log, so
they are summed up in one relation: `Quiet s s'` says that `s'` is `s` with a
longer log.
-/

namespace Confinement

namespace Action

variable {σ ε α : Type}

/-- The second session is the first with a longer log. -/
def Quiet (s s' : Session σ) : Prop := ∃ log, s' = { s with log }

namespace Quiet

variable {s s' s'' : Session σ}

theorem trans (h : Quiet s s') (h' : Quiet s' s'') : Quiet s s'' := by
  obtain ⟨_, rfl⟩ := h
  obtain ⟨log, rfl⟩ := h'
  exact ⟨log, rfl⟩

theorem fs_eq (h : Quiet s s') : s'.fs = s.fs := by
  obtain ⟨_, rfl⟩ := h
  rfl

theorem journal_eq (h : Quiet s s') : s'.journal = s.journal := by
  obtain ⟨_, rfl⟩ := h
  rfl

end Quiet

/-! ## Elementary actions -/

theorem run_lift_eq_ok {result : Except ε α} {s s' : Session σ} {a : α} :
    (lift result : Action σ ε α).run s = (.ok a, s') ↔ result = .ok a ∧ s = s' := by
  cases result with
  | error e =>
      refine ⟨fun h => absurd h run_throw_ne_ok, fun h => ?_⟩
      cases h.1
  | ok b =>
      rw [lift, run_pure_eq_ok]
      constructor
      · rintro ⟨rfl, rfl⟩
        exact ⟨rfl, rfl⟩
      · rintro ⟨h, rfl⟩
        cases h
        exact ⟨rfl, rfl⟩

theorem run_fail_ne_ok {e : ε} {s s' : Session σ} {a : α} :
    (fail e : Action σ ε α).run s ≠ (.ok a, s') :=
  run_throw_ne_ok

theorem run_files (s : Session σ) : (files : Action σ ε FileSystem).run s = (.ok s.fs, s) :=
  rfl

theorem run_note (lines : Log) (s : Session σ) :
    (note lines : Action σ ε Unit).run s = (.ok (), { s with log := s.log ++ lines }) :=
  rfl

theorem run_files_eq_ok {s s' : Session σ} {fs : FileSystem} :
    (files : Action σ ε FileSystem).run s = (.ok fs, s') ↔ s.fs = fs ∧ s = s' := by
  constructor
  · intro h
    cases h
    exact ⟨rfl, rfl⟩
  · rintro ⟨rfl, rfl⟩
    rfl

theorem quiet_of_note {lines : Log} {s s' : Session σ} {u : Unit}
    (h : (note lines : Action σ ε Unit).run s = (.ok u, s')) : Quiet s s' := by
  cases h
  exact ⟨_, rfl⟩

/-! ## Around an action -/

/-- Closing what was opened changes the loader and what is open. -/
theorem run_closing (ld : Loader σ) (discards : Except (Stop ε) α → Bool) (a : Action σ ε α)
    (s : Session σ) : (closing ld discards a).run s =
      if discards (a.run s).1 then
        ((a.run s).1, { (a.run s).2 with
          loader := ((a.run s).2.opened.drop s.opened.length).foldl
            (fun loader unit => ld.close unit loader) (a.run s).2.loader
          opened := (a.run s).2.opened.take s.opened.length })
      else a.run s :=
  rfl

theorem exists_run_closing (ld : Loader σ) (discards : Except (Stop ε) α → Bool)
    (a : Action σ ε α) (s : Session σ) : ∃ loader opened,
    (closing ld discards a).run s = ((a.run s).1, { (a.run s).2 with loader, opened }) := by
  rw [run_closing]
  split
  · exact ⟨_, _, rfl⟩
  · exact ⟨(a.run s).2.loader, (a.run s).2.opened, rfl⟩

/-- What differs by no more than closed objects still does once more of them
are closed. -/
theorem exists_run_closing_of_eq {discards : Except (Stop ε) α → Bool} {a : Action σ ε α}
    {s : Session σ} {r : Except (Stop ε) α × Session σ}
    (h : ∃ loader opened, a.run s = (r.1, { r.2 with loader, opened })) : ∃ loader opened,
      (closing ld discards a).run s = (r.1, { r.2 with loader, opened }) := by
  obtain ⟨loader, opened, hrun⟩ := h
  obtain ⟨loader', opened', hclosing⟩ := exists_run_closing ld discards a s
  exact ⟨loader', opened', by rw [hclosing, hrun]⟩

/-- Objects that an action opened stay open when it succeeds. -/
theorem run_closingOnFailure_eq_ok {ld : Loader σ} {a : Action σ ε α} {s s' : Session σ} {x : α} :
    (closingOnFailure ld a).run s = (.ok x, s') ↔ a.run s = (.ok x, s') := by
  rw [closingOnFailure, run_closing]
  cases a.run s with
  | mk result after =>
      cases result with
      | ok b => rfl
      | error stop =>
          constructor
          · intro h
            cases h
          · intro h
            cases h

/-- What becomes of a failure when it is wrapped. -/
def Stop.map {ε' : Type} (f : ε → ε') : Stop ε → Stop ε'
  | .failed e => .failed (f e)
  | .ended life => .ended life

theorem wrap_run {ε' : Type} (f : ε → ε') (a : Action σ ε α) (s : Session σ) :
    (wrap f a).run s = match a.run s with
      | (.ok a, s) => (.ok a, s)
      | (.error (.failed e), s) => (.error (.failed (f e)), s)
      | (.error (.ended life), s) => (.error (.ended life), s) :=
  rfl

theorem run_wrap {ε' : Type} (f : ε → ε') (a : Action σ ε α) (s : Session σ) :
    (wrap f a).run s = ((a.run s).1.mapError (Stop.map f), (a.run s).2) := by
  rw [wrap_run]
  cases a.run s with
  | mk result after => rcases result with (e | life) | x <;> rfl

theorem run_wrap_eq_ok {ε' : Type} {f : ε → ε'} {a : Action σ ε α} {s s' : Session σ} {x : α} :
    (wrap f a).run s = (.ok x, s') ↔ a.run s = (.ok x, s') := by
  rw [run_wrap, Prod.mk.injEq, mapError_eq_ok, Prod.ext_iff]

/-! ## Questions to the loader -/

/-- An object that was opened is entered in the journal as one question; the
files stay as they are. -/
theorem run_load_eq_ok {ld : Loader σ} {path : Path} {binding : Binding} {s s' : Session σ}
    {unit : CodeUnit} (h : (load ld path binding).run s = (.ok unit, s')) :
    s'.fs = s.fs ∧ s'.journal.map (·.call) = s.journal.map (·.call) ++ [.load path binding] := by
  simp only [load] at h
  obtain ⟨_, s₁, hrecord, h⟩ := run_bind_eq_ok.mp h
  obtain ⟨_, _, hget, h⟩ := run_bind_eq_ok.mp h
  obtain ⟨rfl, rfl⟩ := run_get_eq_ok.mp hget
  cases hrecord
  -- The question is in the journal before its answer is known.
  cases hload : ld.load path binding s.fs s.loader with
  | mk result loader =>
      simp only [hload] at h
      obtain ⟨_, _, hset, h⟩ := run_bind_eq_ok.mp h
      obtain rfl := run_set_eq_ok.mp hset
      cases result with
      | error e => exact absurd h run_fail_ne_ok
      | ok handle =>
          obtain ⟨_, s₂, hmodify, h⟩ := run_bind_eq_ok.mp h
          obtain ⟨_, s₃, hnote, h⟩ := run_bind_eq_ok.mp h
          obtain ⟨-, rfl⟩ := run_pure_eq_ok.mp h
          have hquiet := quiet_of_note hnote
          cases hmodify
          rw [hquiet.fs_eq, hquiet.journal_eq]
          exact ⟨rfl, by simp⟩

end Action

end Confinement
