import Confinement.Preload
import Confinement.Proofs.Session.Trace

/-!
# What a successful preload has done

A preload that succeeds has opened every name, in order, by one question to
the loader each (`run_preload_eq_ok`); no name failed on the way, whatever the
policy.  Binding the residents then leaves the name of each of them bound
(`isSome_originOf?_registerResidents`), and every name that was bound before
(`originOf?_registerResidents_of_isSome`).
-/

namespace Confinement

namespace Action

variable {σ : Type}

/-- The question by which a resident extension was opened. -/
def openingCall (r : Resident) : Call := .load r.origin .global

theorem attempt_run {ε ε' α : Type} (a : Action σ ε α) (s : Session σ) :
    (attempt a : Action σ ε' (Except ε α)).run s = match a.run s with
      | (.ok a, s) => (.ok (.ok a), s)
      | (.error (.failed e), s) => (.ok (.error e), s)
      | (.error (.ended life), s) => (.error (.ended life), s) :=
  rfl

/-- An action that fails is a result. -/
def Stop.toResult {ε ε' α : Type} : Except (Stop ε) α → Except (Stop ε') (Except ε α)
  | .ok x => .ok (.ok x)
  | .error (.failed e) => .ok (.error e)
  | .error (.ended life) => .error (.ended life)

theorem run_attempt {ε ε' α : Type} (a : Action σ ε α) (s : Session σ) :
    (attempt a : Action σ ε' (Except ε α)).run s = (Stop.toResult (a.run s).1, (a.run s).2) := by
  rw [attempt_run]
  cases a.run s with
  | mk result after => rcases result with (e | life) | x <;> rfl

theorem run_attempt_eq_ok {ε ε' α : Type} {a : Action σ ε α} {s s' : Session σ} {x : α}
    (h : (attempt a : Action σ ε' (Except ε α)).run s = (.ok (.ok x), s')) :
    a.run s = (.ok x, s') := by
  rw [run_attempt] at h
  cases ha : a.run s with
  | mk result after =>
      rw [ha] at h
      rcases result with (e | life) | b <;> cases h
      rfl

/-- An action that fails asks no more questions for being a result. -/
theorem Traces.attempt {ε ε' α : Type} {fs : FileSystem} {a : Action σ ε α}
    {Q : Except (Stop ε) α → List Call → Prop} (h : Traces fs a Q) :
    Traces fs (attempt a : Action σ ε' (Except ε α)) fun r calls =>
      ∃ r', Q r' calls ∧ r = Stop.toResult r' := by
  intro s hs
  obtain ⟨calls, hasks, hQ⟩ := h s hs
  rw [run_attempt]
  exact ⟨calls, hasks, _, hQ, rfl⟩

/-- One extension opened: its origin is what its name leads to, and the loader
was asked once. -/
theorem run_preloadOne_eq_ok {ld : Loader σ} {directories : List Path} {suffix name : String}
    {s s' : Session σ} {r : Resident}
    (h : (preloadOne ld directories suffix name).run s = (.ok r, s')) :
    r.name = name ∧ extensionOrigin s.fs directories suffix name = some r.origin ∧
      s'.fs = s.fs ∧
      s'.journal.map (·.call) = s.journal.map (·.call) ++ [openingCall r] := by
  rw [preloadOne] at h
  obtain ⟨fs, _, hfiles, h⟩ := run_bind_eq_ok.mp h
  obtain ⟨rfl, rfl⟩ := run_files_eq_ok.mp hfiles
  cases horigin : extensionOrigin s.fs directories suffix name with
  | none =>
      simp only [horigin] at h
      exact absurd h run_fail_ne_ok
  | some origin =>
      simp only [horigin] at h
      obtain ⟨unit, s₁, hload, h⟩ := run_bind_eq_ok.mp h
      obtain ⟨_, s₂, hnote, h⟩ := run_bind_eq_ok.mp h
      obtain ⟨rfl, rfl⟩ := run_pure_eq_ok.mp h
      -- Only the opening asks a question: looking at the files and the note that follows do not.
      have hquiet := quiet_of_note hnote
      obtain ⟨hfs, hjournal⟩ := run_load_eq_ok (run_wrap_eq_ok.mp hload)
      rw [hquiet.fs_eq, hquiet.journal_eq]
      exact ⟨rfl, rfl, hfs, hjournal⟩

/-- Names opened one after the other without a failure. -/
theorem run_preloadEach_eq_ok {ld : Loader σ} {directories : List Path} {suffix : String}
    {policy : PreloadPolicy} {names : List String} {s s' : Session σ} {residents : List Resident}
    (h : (preloadEach ld directories suffix policy names).run s = (.ok (residents, []), s')) :
    residents.map (·.name) = names ∧
      (∀ r ∈ residents, extensionOrigin s.fs directories suffix r.name = some r.origin) ∧
      s'.fs = s.fs ∧
      s'.journal.map (·.call) = s.journal.map (·.call) ++ residents.map openingCall := by
  induction names generalizing s residents with
  | nil =>
      obtain ⟨heq, rfl⟩ := run_pure_eq_ok.mp h
      obtain rfl : [] = residents := congrArg Prod.fst heq
      simp
  | cons name names ih =>
      rw [preloadEach] at h
      obtain ⟨result, s₁, hattempt, h⟩ := run_bind_eq_ok.mp h
      cases result with
      | error reason =>
          -- a failure ends the run, or is among those reported at the end
          cases policy with
          | failFast => exact absurd h run_fail_ne_ok
          | collectAll =>
              obtain ⟨_, _, -, h⟩ := run_bind_eq_ok.mp h
              obtain ⟨pair, _, -, h⟩ := run_bind_eq_ok.mp h
              obtain ⟨heq, -⟩ := run_pure_eq_ok.mp h
              cases congrArg Prod.snd heq
      | ok r =>
          obtain ⟨pair, _, heach, h⟩ := run_bind_eq_ok.mp h
          obtain ⟨heq, rfl⟩ := run_pure_eq_ok.mp h
          obtain ⟨rest, failures⟩ := pair
          obtain rfl : r :: rest = residents := congrArg Prod.fst heq
          obtain rfl : failures = [] := congrArg Prod.snd heq
          obtain ⟨hname, horigin, hfs, hjournal⟩ :=
            run_preloadOne_eq_ok (run_attempt_eq_ok hattempt)
          obtain ⟨hnames, horigins, hfs', hjournal'⟩ := ih heach
          refine ⟨by simp [hname, hnames], ?_, hfs'.trans hfs, ?_⟩
          · intro other hother
            rcases List.mem_cons.mp hother with rfl | hother
            · rw [hname]
              exact horigin
            · rw [← hfs]
              exact horigins other hother
          · rw [hjournal', hjournal]
            simp

/-- A preload that succeeds has opened the names of the set, each once and in
order, and asked the loader nothing else. -/
theorem run_preload_eq_ok {ld : Loader σ} {directories : List Path} {suffix : String}
    {policy : PreloadPolicy} {extensions : ExtensionSet} {s s' : Session σ}
    {residents : List Resident}
    (h : (preload ld directories suffix policy extensions).run s = (.ok residents, s')) :
    residents.map (·.name) = extensions.names ∧
      (∀ r ∈ residents, extensionOrigin s.fs directories suffix r.name = some r.origin) ∧
      s'.fs = s.fs ∧
      s'.journal.map (·.call) = s.journal.map (·.call) ++ residents.map openingCall := by
  obtain ⟨pair, s₁, heach, h⟩ := run_bind_eq_ok.mp (run_closingOnFailure_eq_ok.mp h)
  obtain ⟨opened, failures⟩ := pair
  cases failures with
  | cons failure failures => exact absurd h run_fail_ne_ok
  | nil =>
      obtain ⟨_, s₂, hnote, h⟩ := run_bind_eq_ok.mp h
      obtain ⟨rfl, rfl⟩ := run_pure_eq_ok.mp h
      have hquiet := quiet_of_note hnote
      rw [hquiet.fs_eq, hquiet.journal_eq]
      exact run_preloadEach_eq_ok heach

end Action

/-! ## Binding the residents -/

namespace Registry

theorem isSome_originOf?_register (r : Registry) (name : String) (origin : Path) :
    ((r.register name origin).originOf? name).isSome := by
  by_cases h : (r.originOf? name).isSome
  · rw [originOf?_register_of_isSome h]
    exact h
  · rw [originOf?_register_of_isNone (Option.not_isSome_iff_eq_none.mp h)]
    rfl

/-- A name that is bound stays bound to the same object. -/
theorem originOf?_registerResidents_of_isSome {r : Registry} {name : String}
    (h : (r.originOf? name).isSome) (residents : List Resident) :
    (r.registerResidents residents).originOf? name = r.originOf? name := by
  induction residents generalizing r with
  | nil => rfl
  | cons resident rest ih =>
      have hkept := originOf?_register_of_isSome h resident.boundName resident.origin
      rw [registerResidents, List.foldl_cons, ← hkept]
      exact ih (by rw [hkept]; exact h)

theorem isSome_originOf?_registerResidents {residents : List Resident} {resident : Resident}
    (hmem : resident ∈ residents) (r : Registry) :
    ((r.registerResidents residents).originOf? resident.boundName).isSome := by
  induction residents generalizing r with
  | nil => simp at hmem
  | cons first rest ih =>
      rcases List.mem_cons.mp hmem with rfl | hmem
      · -- Bound in its own turn, if not before; later turns leave it.
        have hbound := isSome_originOf?_register r resident.boundName resident.origin
        have hkept := originOf?_registerResidents_of_isSome hbound rest
        have hsome : (((r.register resident.boundName resident.origin).registerResidents
            rest).originOf? resident.boundName).isSome := by
          rw [hkept]
          exact hbound
        exact hsome
      · exact ih hmem _

end Registry

end Confinement
