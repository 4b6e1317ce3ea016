import Confinement.Proofs.Session.Run

/-!
# What an action asks of the loader

The journal says in which circumstances every question was asked.  Most
actions ask questions and do nothing else: files, identity, environment and
children stay as they are, and with them the circumstances.  `Asks calls s s'`
says so of two sessions.

`Traces fs a Q` says it of an action, whatever its outcome: begun with the
files `fs`, the action asks questions and does nothing else, and `Q` holds of
its result and of these questions.  Actions are put together from parts by
`Traces.bind`, and `Q` joins what is known of the parts.

Two kinds of `Q` come up again and again.  `Only P R`: the questions are all of
the kind `P`, the process does not end, and a value is as `R` says.
`Yields V`: there is a value, and `V` holds of it and of the questions.
-/

namespace Confinement

variable {σ ε α β : Type}

/-- A question as the journal has it. -/
def Session.entry (s : Session σ) (call : Call) : Record :=
  ⟨call, s.fs.root, s.fs.cwd, s.ids, s.env.get? Action.argumentsVariable⟩

/-- What running an entry point comes to for the action that asked for it. -/
def Return.result : Return → Except (Stop UnitError) Unit
  | .back result => result.mapError .failed
  | .never life => .error (.ended life)

namespace Action

/-- The second session is the first after some questions to the loader, which
leave their mark on the loader, the open objects and the log. -/
def Asks (calls : List Call) (s s' : Session σ) : Prop :=
  ∃ loader opened log,
    s' = { s with journal := s.journal ++ calls.map s.entry, loader, opened, log }

namespace Asks

variable {calls calls' : List Call} {s s' s'' : Session σ}

theorem refl (s : Session σ) : Asks [] s s :=
  ⟨s.loader, s.opened, s.log, by simp⟩

theorem trans (h : Asks calls s s') (h' : Asks calls' s' s'') : Asks (calls ++ calls') s s'' := by
  obtain ⟨_, _, _, rfl⟩ := h
  obtain ⟨loader, opened, log, rfl⟩ := h'
  refine ⟨loader, opened, log, ?_⟩
  rw [List.map_append, ← List.append_assoc]
  rfl

theorem fs_eq (h : Asks calls s s') : s'.fs = s.fs := by
  obtain ⟨_, _, _, rfl⟩ := h
  rfl

theorem env_eq (h : Asks calls s s') : s'.env = s.env := by
  obtain ⟨_, _, _, rfl⟩ := h
  rfl

theorem kernel_eq (h : Asks calls s s') : s'.kernel = s.kernel := by
  obtain ⟨_, _, _, rfl⟩ := h
  rfl

theorem children_eq (h : Asks calls s s') : s'.children = s.children := by
  obtain ⟨_, _, _, rfl⟩ := h
  rfl

theorem nextPid_eq (h : Asks calls s s') : s'.nextPid = s.nextPid := by
  obtain ⟨_, _, _, rfl⟩ := h
  rfl

theorem journal_eq (h : Asks calls s s') : s'.journal = s.journal ++ calls.map s.entry := by
  obtain ⟨_, _, _, rfl⟩ := h
  rfl

theorem entry_eq (h : Asks calls s s') : s'.entry = s.entry := by
  obtain ⟨_, _, _, rfl⟩ := h
  rfl

/-- The journal tells which questions were asked. -/
theorem unique (h : Asks calls s s') (h' : Asks calls' s s') : calls = calls' := by
  have hentries := List.append_cancel_left (h.journal_eq.symm.trans h'.journal_eq)
  have hcalls := congrArg (List.map Record.call) hentries
  simpa [Session.entry, Function.comp_def] using hcalls

end Asks

theorem Quiet.asks {s s' : Session σ} (h : Quiet s s') : Asks [] s s' := by
  obtain ⟨log, rfl⟩ := h
  exact ⟨s.loader, s.opened, log, by simp⟩

/-- Begun with the files `fs`, the action asks questions and does nothing else;
`Q` holds of its result and of the questions. -/
def Traces (fs : FileSystem) (a : Action σ ε α) (Q : Except (Stop ε) α → List Call → Prop) :
    Prop :=
  ∀ s : Session σ, s.fs = fs → ∃ calls, Asks calls s (a.run s).2 ∧ Q (a.run s).1 calls

variable {fs : FileSystem} {Q : Except (Stop ε) α → List Call → Prop}
  {Q' : Except (Stop ε) β → List Call → Prop}

/-! ## Putting actions together -/

theorem Traces.mono {a : Action σ ε α} {P : Except (Stop ε) α → List Call → Prop}
    (h : Traces fs a P) (himp : ∀ r calls, P r calls → Q r calls) : Traces fs a Q := by
  intro s hs
  obtain ⟨calls, hasks, hP⟩ := h s hs
  exact ⟨calls, hasks, himp _ _ hP⟩

theorem Traces.and {a : Action σ ε α} {P : Except (Stop ε) α → List Call → Prop}
    (h : Traces fs a P) (h' : Traces fs a Q) :
    Traces fs a fun r calls => P r calls ∧ Q r calls := by
  intro s hs
  obtain ⟨calls, hasks, hP⟩ := h s hs
  obtain ⟨calls', hasks', hQ⟩ := h' s hs
  obtain rfl := hasks.unique hasks'
  exact ⟨calls, hasks, hP, hQ⟩

theorem traces_pure {a : α} (h : Q (.ok a) []) : Traces fs (pure a : Action σ ε α) Q := by
  intro s _
  exact ⟨[], .refl s, h⟩

theorem traces_fail {e : ε} (h : Q (.error (.failed e)) []) :
    Traces fs (fail e : Action σ ε α) Q := by
  intro s _
  exact ⟨[], .refl s, h⟩

/-- The questions of an action with two steps are those of the first, and those
of the second if it takes place. -/
theorem Traces.bind {a : Action σ ε α} {f : α → Action σ ε β} (ha : Traces fs a Q)
    (hok : ∀ x calls, Q (.ok x) calls →
      Traces fs (f x) fun r calls' => Q' r (calls ++ calls'))
    (herror : ∀ e calls, Q (.error e) calls → Q' (.error e) calls) : Traces fs (a >>= f) Q' := by
  intro s hs
  obtain ⟨calls, hasks, hQ⟩ := ha s hs
  cases hrun : a.run s with
  | mk result s₁ =>
      rw [hrun] at hasks hQ
      cases result with
      | error e =>
          rw [run_bind_of_error hrun]
          exact ⟨calls, hasks, herror e calls hQ⟩
      | ok x =>
          rw [run_bind_of_ok hrun]
          -- The second step starts from the same files, so what is known of it holds here.
          obtain ⟨calls', hasks', hQ'⟩ := hok x calls hQ s₁ (hasks.fs_eq.trans hs)
          exact ⟨calls ++ calls', hasks.trans hasks', hQ'⟩

/-- A first step that asks nothing and does not fail. -/
theorem Traces.quietly {a : Action σ ε α} {f : α → Action σ ε β} {x : α}
    (ha : Traces fs a fun r calls => r = .ok x ∧ calls = []) (hf : Traces fs (f x) Q') :
    Traces fs (a >>= f) Q' := by
  apply ha.bind
  · rintro y calls ⟨hy, rfl⟩
    cases hy
    exact hf
  · rintro e calls ⟨he, -⟩
    cases he

/-! ## Elementary actions -/

theorem traces_files : Traces fs (files : Action σ ε FileSystem)
    fun r calls => r = .ok fs ∧ calls = [] := by
  rintro s rfl
  exact ⟨[], .refl s, rfl, rfl⟩

theorem traces_note {lines : Log} : Traces fs (note lines : Action σ ε Unit)
    fun r calls => r = .ok () ∧ calls = [] := by
  intro s _
  exact ⟨[], Quiet.asks ⟨_, rfl⟩, rfl, rfl⟩

/-- A question comes first, and what follows sees it in the journal. -/
theorem run_record_bind {call : Call} {f : Session σ → Action σ ε α} (s : Session σ) :
    (do record call; let s ← get; f s : Action σ ε α).run s =
      (f { s with journal := s.journal ++ [s.entry call] }).run
        { s with journal := s.journal ++ [s.entry call] } :=
  rfl

variable {ld : Loader σ}

/-- An object to be opened: one question, and the loader's answer to it. -/
theorem exists_run_load (ld : Loader σ) (path : Path) (binding : Binding) (s : Session σ) :
    ∃ s', (load ld path binding).run s =
        (((ld.load path binding s.fs s.loader).1.map (CodeUnit.mk path)).mapError .failed, s') ∧
      Asks [.load path binding] s s' ∧ s'.loader = (ld.load path binding s.fs s.loader).2 := by
  rw [load, run_record_bind]
  cases ld.load path binding s.fs s.loader with
  | mk result loader =>
      cases result with
      | error e => exact ⟨_, rfl, ⟨loader, s.opened, s.log, rfl⟩, rfl⟩
      | ok handle =>
          exact ⟨_, rfl, ⟨loader, s.opened ++ [⟨path, handle⟩],
            s.log ++ ld.remark (.load path binding), rfl⟩, rfl⟩

theorem run_needed (ld : Loader σ) (path : Path) (s : Session σ) :
    (needed ld path).run s = ((ld.needed path s.fs s.loader).1.mapError .failed,
      { s with
        journal := s.journal ++ [s.entry (.needed path)]
        loader := (ld.needed path s.fs s.loader).2 }) := by
  rw [needed, run_record_bind]
  cases ld.needed path s.fs s.loader with
  | mk result loader => cases result <;> rfl

theorem run_isResident (ld : Loader σ) (name : String) (s : Session σ) :
    (isResident ld name).run s = (.ok (ld.isResident name s.fs s.loader).1,
      { s with
        journal := s.journal ++ [s.entry (.isResident name)]
        loader := (ld.isResident name s.fs s.loader).2 }) :=
  rfl

/-- An entry point run: one question, after which files and loader are as the
entry point leaves them. -/
theorem exists_run_invoke (ld : Loader σ) (unit : CodeUnit) (symbol : String) (s : Session σ) :
    ∃ log, (invoke ld unit symbol).run s =
      ((ld.invoke unit symbol s.env s.fs s.loader).1.result,
        { s with
          journal := s.journal ++ [s.entry (.invoke unit.origin symbol)]
          fs := (ld.invoke unit symbol s.env s.fs s.loader).2.1
          loader := (ld.invoke unit symbol s.env s.fs s.loader).2.2, log }) := by
  rw [invoke, run_record_bind]
  cases ld.invoke unit symbol s.env s.fs s.loader with
  | mk answer rest =>
      rcases answer with (e | _) | life
      · exact ⟨s.log, rfl⟩
      · exact ⟨s.log ++ ld.remark (.invoke unit.origin symbol), rfl⟩
      · exact ⟨s.log ++ ld.remark (.invoke unit.origin symbol), rfl⟩

theorem traces_load {path : Path} {binding : Binding} :
    Traces fs (load ld path binding) fun r calls =>
      (∃ st, r = ((ld.load path binding fs st).1.map (CodeUnit.mk path)).mapError .failed) ∧
        calls = [.load path binding] := by
  rintro s rfl
  obtain ⟨s', hrun, hasks, -⟩ := exists_run_load ld path binding s
  rw [hrun]
  exact ⟨_, hasks, ⟨s.loader, rfl⟩, rfl⟩

theorem traces_needed {path : Path} :
    Traces fs (needed ld path) fun r calls =>
      (∃ st, r = (ld.needed path fs st).1.mapError .failed) ∧ calls = [.needed path] := by
  rintro s rfl
  rw [run_needed]
  exact ⟨_, ⟨_, s.opened, s.log, rfl⟩, ⟨s.loader, rfl⟩, rfl⟩

theorem traces_isResident {name : String} :
    Traces fs (isResident ld name) fun r calls =>
      (∃ st, r = .ok (ld.isResident name fs st).1) ∧ calls = [.isResident name] := by
  rintro s rfl
  rw [run_isResident]
  exact ⟨_, ⟨_, s.opened, s.log, rfl⟩, ⟨s.loader, rfl⟩, rfl⟩

/-! ## Around an action -/

/-- Wrapping a failure changes no questions. -/
theorem Traces.wrap {ε' : Type} {f : ε → ε'} {a : Action σ ε α} (h : Traces fs a Q) :
    Traces fs (wrap f a) fun r calls => ∃ r', Q r' calls ∧ r = r'.mapError (Stop.map f) := by
  intro s hs
  obtain ⟨calls, hasks, hQ⟩ := h s hs
  rw [run_wrap]
  exact ⟨calls, hasks, _, hQ, rfl⟩

theorem Traces.closing {discards : Except (Stop ε) α → Bool} {a : Action σ ε α}
    (h : Traces fs a Q) : Traces fs (closing ld discards a) Q := by
  intro s hs
  obtain ⟨calls, ⟨_, _, log, hafter⟩, hQ⟩ := h s hs
  obtain ⟨loader, opened, hrun⟩ := exists_run_closing ld discards a s
  rw [hrun, hafter]
  exact ⟨calls, ⟨loader, opened, log, rfl⟩, hQ⟩

/-! ## Questions of one kind -/

/-- All questions are of the kind `P`, the process does not end, and `R` holds
of the value if there is one. -/
def Only (P : Call → Prop) (R : α → Prop) : Except (Stop ε) α → List Call → Prop
  | .ok a, calls => R a ∧ ∀ call ∈ calls, P call
  | .error (.failed _), calls => ∀ call ∈ calls, P call
  | .error (.ended _), _ => False

variable {P : Call → Prop} {R : α → Prop} {R' : β → Prop}

theorem Only.forall_mem {r : Except (Stop ε) α} {calls : List Call} (h : Only P R r calls) :
    ∀ call ∈ calls, P call := by
  cases r with
  | ok a => exact h.2
  | error stop =>
      cases stop with
      | failed e => exact h
      | ended life => exact h.elim

theorem Only.ne_ended {r : Except (Stop ε) α} {calls : List Call} (h : Only P R r calls)
    (life : Life) : r ≠ .error (.ended life) := by
  rintro rfl
  exact h

theorem Only.append {r : Except (Stop ε) α} {calls calls' : List Call}
    (hcalls : ∀ call ∈ calls, P call) (h : Only P R r calls') : Only P R r (calls ++ calls') := by
  have hall : ∀ call ∈ calls ++ calls', P call := by
    intro call hcall
    rcases List.mem_append.mp hcall with hmem | hmem
    · exact hcalls call hmem
    · exact h.forall_mem call hmem
  cases r with
  | ok a => exact ⟨h.1, hall⟩
  | error stop =>
      cases stop with
      | failed e => exact hall
      | ended life => exact h

theorem Traces.only_mono {a : Action σ ε α} {P' : Call → Prop} (h : Traces fs a (Only P R))
    (himp : ∀ call, P call → P' call) : Traces fs a (Only P' R) := by
  apply h.mono
  intro r calls hr
  cases r with
  | ok x => exact ⟨hr.1, fun call hcall => himp call (hr.2 call hcall)⟩
  | error stop =>
      cases stop with
      | failed e => exact fun call hcall => himp call (hr call hcall)
      | ended life => exact hr

theorem Traces.only_bind {a : Action σ ε α} {f : α → Action σ ε β} (ha : Traces fs a (Only P R))
    (hf : ∀ x, R x → Traces fs (f x) (Only P R')) : Traces fs (a >>= f) (Only P R') := by
  apply ha.bind
  · intro x calls hx
    exact (hf x hx.1).mono fun r calls' hr => hr.append hx.2
  · intro stop calls hstop
    cases stop with
    | failed e => exact hstop
    | ended life => exact hstop

theorem traces_only_pure {a : α} (h : R a) : Traces fs (pure a : Action σ ε α) (Only P R) :=
  traces_pure ⟨h, fun _ hcall => absurd hcall List.not_mem_nil⟩

theorem traces_only_fail {e : ε} : Traces fs (fail e : Action σ ε α) (Only P R) :=
  traces_fail fun _ hcall => absurd hcall List.not_mem_nil

theorem traces_only_lift {result : Except ε α} (h : ∀ a, result = .ok a → R a) :
    Traces fs (lift result : Action σ ε α) (Only P R) := by
  cases result with
  | ok a => exact traces_only_pure (h a rfl)
  | error e => exact traces_only_fail

theorem traces_only_get :
    Traces fs (get : Action σ ε (Session σ)) (Only P fun s => s.fs = fs) := by
  intro s hs
  exact ⟨[], .refl s, hs, fun _ hcall => absurd hcall List.not_mem_nil⟩

theorem traces_only_load {path : Path} {binding : Binding} (h : P (.load path binding)) :
    Traces fs (load ld path binding) (Only P fun unit => unit.origin = path) := by
  apply traces_load.mono
  rintro _ _ ⟨⟨st, rfl⟩, rfl⟩
  cases (ld.load path binding fs st).1 with
  | error e => exact List.forall_mem_singleton.mpr h
  | ok handle => exact ⟨rfl, List.forall_mem_singleton.mpr h⟩

theorem traces_only_needed {path : Path} (h : P (.needed path)) :
    Traces fs (needed ld path)
      (Only P fun names => ∃ st, (ld.needed path fs st).1 = .ok names) := by
  apply traces_needed.mono
  rintro _ _ ⟨⟨st, rfl⟩, rfl⟩
  cases hneeded : (ld.needed path fs st).1 with
  | error e => exact List.forall_mem_singleton.mpr h
  | ok names => exact ⟨⟨st, hneeded⟩, List.forall_mem_singleton.mpr h⟩

theorem traces_only_isResident {name : String} (h : P (.isResident name)) :
    Traces fs (isResident ld name)
      (Only P fun mapped => ∃ st, (ld.isResident name fs st).1 = mapped) := by
  apply traces_isResident.mono
  rintro _ _ ⟨⟨st, rfl⟩, rfl⟩
  exact ⟨⟨st, rfl⟩, List.forall_mem_singleton.mpr h⟩

theorem Traces.only_wrap {ε' : Type} {f : ε → ε'} {a : Action σ ε α}
    (h : Traces fs a (Only P R)) : Traces fs (Action.wrap f a) (Only P R) := by
  apply h.wrap.mono
  rintro _ calls ⟨r, hr, rfl⟩
  cases r with
  | ok x => exact hr
  | error stop =>
      cases stop with
      | failed e => exact hr
      | ended life => exact hr

/-- Steps taken one after the other, each of which asks questions of one kind
and keeps what holds of the value so far. -/
theorem traces_only_foldlM {f : β → α → Action σ ε β} {xs : List α}
    (hf : ∀ x ∈ xs, ∀ b, R' b → Traces fs (f b x) (Only P R')) {b : β} (hb : R' b) :
    Traces fs (xs.foldlM f b) (Only P R') := by
  induction xs generalizing b with
  | nil => exact traces_only_pure hb
  | cons x xs ih =>
      rw [List.foldlM_cons]
      apply (hf x List.mem_cons_self b hb).only_bind
      intro b' hb'
      exact ih (fun y hy => hf y (List.mem_cons_of_mem x hy)) hb'

/-! ## Values -/

/-- There is a value, and `V` holds of it and of the questions. -/
def Yields (V : α → List Call → Prop) (r : Except (Stop ε) α) (calls : List Call) : Prop :=
  ∃ a, r = .ok a ∧ V a calls

variable {V : α → List Call → Prop} {V' : β → List Call → Prop}

theorem traces_yields_pure {a : α} (h : V a []) :
    Traces fs (pure a : Action σ ε α) (Yields V) :=
  traces_pure ⟨a, rfl, h⟩

/-- After a first step with a value there is a second one. -/
theorem Traces.bind_of_yields {a : Action σ ε α} {f : α → Action σ ε β}
    (ha : Traces fs a (Yields V))
    (hf : ∀ x calls, V x calls → Traces fs (f x) fun r calls' => Q' r (calls ++ calls')) :
    Traces fs (a >>= f) Q' := by
  apply ha.bind
  · rintro x calls ⟨_, heq, hx⟩
    cases heq
    exact hf x calls hx
  · rintro e calls ⟨_, heq, -⟩
    cases heq

theorem Traces.yields_bind {a : Action σ ε α} {f : α → Action σ ε β}
    (ha : Traces fs a (Yields V))
    (hf : ∀ x calls, V x calls → Traces fs (f x) (Yields fun y calls' => V' y (calls ++ calls'))) :
    Traces fs (a >>= f) (Yields V') :=
  ha.bind_of_yields hf

end Action

end Confinement
