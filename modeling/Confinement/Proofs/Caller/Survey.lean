import Confinement.Caller
import Confinement.Proofs.Session.Preload

/-!
# Before anything is staged

Up to its catalog a call opens extensions, and does nothing else: the files,
the children and what was printed stay as they are, whether or not a step
fails.  `Untouched s s'` says so of two sessions, and each step has a lemma.
-/

namespace Confinement

variable {σ ε α : Type}

/-- The question opens an extension. -/
def Call.OpensExtension (call : Call) : Prop := ∃ path, call = .load path .global

namespace Action

/-- The second session is the first after some extensions were opened, or
were to be opened. -/
def Untouched (s s' : Session σ) : Prop :=
  ∃ calls, Asks calls s s' ∧ ∀ call ∈ calls, call.OpensExtension

/-- Whatever becomes of the action, it opens extensions and does nothing else. -/
abbrev Surveys (fs : FileSystem) (a : Action σ ε α) : Prop :=
  Traces fs a (Only Call.OpensExtension fun _ => True)

namespace Untouched

variable {s s' s'' : Session σ}

theorem trans (h : Untouched s s') (h' : Untouched s' s'') : Untouched s s'' := by
  obtain ⟨calls, hasks, hall⟩ := h
  obtain ⟨calls', hasks', hall'⟩ := h'
  exact ⟨calls ++ calls', hasks.trans hasks', List.forall_mem_append.mpr ⟨hall, hall'⟩⟩

theorem of_quiet (h : Quiet s s') : Untouched s s' :=
  ⟨[], h.asks, fun _ hcall => absurd hcall List.not_mem_nil⟩

theorem of_run {a : Action σ ε α} {r : Except (Stop ε) α} (h : Surveys s.fs a)
    (hrun : a.run s = (r, s')) : Untouched s s' := by
  obtain ⟨calls, hasks, honly⟩ := h s rfl
  rw [hrun] at hasks
  exact ⟨calls, hasks, honly.forall_mem⟩

end Untouched

variable {fs : FileSystem} {ld : Loader σ}

theorem traces_noteRun {level : Level} {text : String} :
    Traces fs (noteRun level text : Action σ Failure Unit)
      fun r calls => r = .ok () ∧ calls = [] := by
  intro s _
  exact ⟨[], Quiet.asks ⟨_, rfl⟩, rfl, rfl⟩

/-! ## Extensions -/

theorem Surveys.attempt {ε' : Type} {a : Action σ ε α} (h : Surveys fs a) :
    Surveys fs (attempt a : Action σ ε' (Except ε α)) := by
  apply (Traces.attempt h).mono
  rintro _ calls ⟨r, honly, rfl⟩
  rcases r with (e | life) | x
  · exact ⟨trivial, honly⟩
  · exact honly.elim
  · exact ⟨trivial, honly.2⟩

theorem surveys_preloadOne (directories : List Path) (suffix name : String) :
    Surveys fs (preloadOne ld directories suffix name) := by
  apply Traces.quietly traces_files
  split
  · exact traces_only_fail
  · rename_i origin _
    apply (traces_only_load ⟨origin, rfl⟩).only_wrap.only_bind
    intro unit _
    apply Traces.quietly traces_note
    exact traces_only_pure trivial

/-- Names are tried one after the other, up to the first failure or to the
last. -/
theorem surveys_preloadEach (directories : List Path) (suffix : String) (policy : PreloadPolicy)
    (names : List String) : Surveys fs (preloadEach ld directories suffix policy names) := by
  induction names with
  | nil => exact traces_only_pure trivial
  | cons name names ih =>
      rw [preloadEach]
      apply (surveys_preloadOne directories suffix name).attempt.only_bind
      -- A failure ends the survey or is kept for later, as the policy says.
      rintro (reason | resident) -
      · cases policy with
        | failFast => exact traces_only_fail
        | collectAll =>
            apply Traces.quietly traces_note
            apply ih.only_bind
            intro _ _
            exact traces_only_pure trivial
      · apply ih.only_bind
        intro _ _
        exact traces_only_pure trivial

theorem surveys_preload (directories : List Path) (suffix : String) (policy : PreloadPolicy)
    (extensions : ExtensionSet) : Surveys fs (preload ld directories suffix policy extensions) := by
  apply Traces.closing
  apply (surveys_preloadEach directories suffix policy extensions.names).only_bind
  rintro ⟨residents, failures⟩ -
  dsimp only
  split
  · apply Traces.quietly traces_note
    exact traces_only_pure trivial
  · exact traces_only_fail

/-! ## The steps of a call -/

theorem surveys_prepare (invocation : Invocation) (config : Configuration) :
    Surveys fs (prepare invocation config : Action σ Failure Prepared) := by
  apply traces_only_get.only_bind
  intro s _
  apply Traces.quietly traces_note
  apply Traces.quietly traces_noteRun
  exact traces_only_pure trivial

theorem surveys_configure (c : Prepared) :
    Surveys fs (configure c : Action σ Failure Configured) := by
  rw [configure]
  split
  · exact traces_only_pure trivial
  · apply Traces.quietly traces_files
    apply Traces.quietly traces_note
    apply (traces_only_lift fun _ _ => trivial).only_bind
    intro extensions _
    apply Traces.quietly traces_noteRun
    exact traces_only_pure trivial

theorem surveys_preloadCall (c : Configured) : Surveys fs (preloadCall ld c) := by
  apply Traces.closing
  apply (surveys_preload _ _ _ _).only_bind
  intro residents _
  apply Traces.quietly traces_files
  apply Traces.quietly traces_note
  apply (traces_only_lift fun _ _ => trivial).only_bind
  intro module _
  split
  · apply Traces.quietly traces_noteRun
    exact traces_only_fail
  · exact traces_only_pure trivial

theorem surveys_discover (c : Preloaded) :
    Surveys fs (discover c : Action σ Failure Discovered) := by
  apply Traces.quietly traces_files
  apply Traces.quietly traces_note
  apply Traces.quietly traces_noteRun
  exact traces_only_pure trivial

/-! ## How a step ends -/

variable {s s₁ : Session σ}

theorem exists_run_prepare (invocation : Invocation) (config : Configuration) (s : Session σ) :
    ∃ entries s', (prepare invocation config).run s = (.ok ⟨invocation, config, entries⟩, s') :=
  ⟨_, _, rfl⟩

theorem exists_run_configure_of_unreadable {c : Prepared} {list : Path}
    {u : ExtensionSet.Unreadable} {log : Log} (hlist : c.invocation.listFile = some list)
    (hmerge : ExtensionSet.mergeFile s.fs .baseline list = (.error u, log)) :
    ∃ s', (configure c).run s = (.error (.failed (.configuration u.message)), s') := by
  rw [configure]
  simp only [hlist]
  rw [run_bind_of_ok (run_files s), hmerge]
  exact ⟨_, rfl⟩

/-- Nothing else does. -/
theorem exists_run_configure (c : Prepared) (s : Session σ) :
    (∃ list u log, c.invocation.listFile = some list ∧
      ExtensionSet.mergeFile s.fs .baseline list = (.error u, log)) ∨
    ∃ extensions s', (configure c).run s = (.ok { c with extensions }, s') := by
  rw [configure]
  cases hlist : c.invocation.listFile with
  | none => exact .inr ⟨_, _, rfl⟩
  | some list =>
      dsimp only
      rw [run_bind_of_ok (run_files s)]
      cases hmerge : ExtensionSet.mergeFile s.fs .baseline list with
      | mk merged log =>
          cases merged with
          | error u => exact .inl ⟨list, u, log, rfl, hmerge⟩
          | ok extensions => exact .inr ⟨extensions, _, rfl⟩

theorem toPrepared_of_configure {c : Prepared} {c' : Configured} {s' : Session σ}
    (h : (configure c).run s = (.ok c', s')) : c'.toPrepared = c := by
  rcases exists_run_configure c s with ⟨list, u, log, hlist, hmerge⟩ | ⟨extensions, s₁, hrun⟩
  · obtain ⟨s₁, hrun⟩ := exists_run_configure_of_unreadable hlist hmerge
    rw [hrun] at h
    cases h
  · rw [hrun] at h
    cases h
    rfl

/-- The extensions of a call opened. -/
abbrev openExtensions (ld : Loader σ) (c : Configured) : Action σ Failure (List Resident) :=
  preload ld c.entries c.config.extensionSuffix c.config.preloadPolicy c.extensions

/-- What follows once they are open. -/
def namingTarget (c : Configured) (residents : List Resident) : Action σ Failure Preloaded := do
  let (host, log) := Registry.ofHost (← files)
  note log
  let registry := host.registerResidents residents
  let module ← lift (c.invocation.moduleName.mapError fun n => .configuration n.message)
  match registry.originOf? module with
  | some origin =>
    noteRun .error ("Target " ++ module ++ " clashes with " ++ origin.display)
    fail (.nameClash module origin.display)
  | none => return { c with residents, registry, module }

theorem preloadCall_eq (c : Configured) :
    preloadCall ld c = closingOnFailure ld (openExtensions ld c >>= namingTarget c) :=
  rfl

/-- A call with open extensions, unless its target has no name or the name is
taken. -/
def nameTarget (c : Configured) (residents : List Resident) (fs : FileSystem) :
    Except Failure Preloaded :=
  let registry := (Registry.ofHost fs).1.registerResidents residents
  match c.invocation.moduleName with
  | .error n => .error (.configuration n.message)
  | .ok module =>
    match registry.originOf? module with
    | some origin => .error (.nameClash module origin.display)
    | none => .ok { c with residents, registry, module }

theorem exists_run_namingTarget (c : Configured) (residents : List Resident) (s : Session σ) :
    ∃ s', (namingTarget c residents).run s =
      ((nameTarget c residents s.fs).mapError .failed, s') := by
  rw [namingTarget, nameTarget, run_bind_of_ok (run_files s)]
  cases Registry.ofHost s.fs with
  | mk host log =>
      dsimp only
      rw [run_bind_of_ok (run_note log s)]
      cases c.invocation.moduleName with
      | error n => exact ⟨_, rfl⟩
      | ok module =>
          rw [run_bind_of_ok (run_lift_eq_ok.mpr ⟨mapError_eq_ok.mpr rfl, rfl⟩)]
          dsimp only
          -- Whether the name is free or taken, nothing but the log has changed.
          cases (host.registerResidents residents).originOf? module with
          | some origin => exact ⟨_, rfl⟩
          | none => exact ⟨_, rfl⟩

theorem exists_run_preloadCall_of_error {c : Configured} {e : Stop Failure}
    (h : (openExtensions ld c).run s = (.error e, s₁)) :
    ∃ s', (preloadCall ld c).run s = (.error e, s') := by
  obtain ⟨_, _, hrun⟩ := exists_run_closing ld (!·.isOk) (openExtensions ld c >>= namingTarget c) s
  rw [run_bind_of_error h] at hrun
  rw [preloadCall_eq, closingOnFailure, hrun]
  exact ⟨_, rfl⟩

theorem exists_run_preloadCall_of_ok {c : Configured} {residents : List Resident}
    (h : (openExtensions ld c).run s = (.ok residents, s₁)) :
    ∃ s', (preloadCall ld c).run s = ((nameTarget c residents s₁.fs).mapError .failed, s') := by
  obtain ⟨_, _, hrun⟩ := exists_run_closing ld (!·.isOk) (openExtensions ld c >>= namingTarget c) s
  obtain ⟨_, hnaming⟩ := exists_run_namingTarget c residents s₁
  rw [run_bind_of_ok h, hnaming] at hrun
  rw [preloadCall_eq, closingOnFailure, hrun]
  exact ⟨_, rfl⟩

theorem toConfigured_of_nameTarget {c : Configured} {c' : Preloaded} {residents : List Resident}
    {fs : FileSystem} (h : nameTarget c residents fs = .ok c') : c'.toConfigured = c := by
  rw [nameTarget] at h
  split at h
  · cases h
  · split at h
    · cases h
    · cases h
      rfl

theorem toConfigured_of_preloadCall {c : Configured} {c' : Preloaded} {s' : Session σ}
    (h : (preloadCall ld c).run s = (.ok c', s')) : c'.toConfigured = c := by
  cases hopen : (openExtensions ld c).run s with
  | mk result s₁ =>
      cases result with
      | error e =>
          obtain ⟨_, hrun⟩ := exists_run_preloadCall_of_error hopen
          rw [hrun] at h
          cases h
      | ok residents =>
          obtain ⟨_, hrun⟩ := exists_run_preloadCall_of_ok hopen
          rw [hrun] at h
          exact toConfigured_of_nameTarget (mapError_eq_ok.mp (congrArg Prod.fst h))

theorem exists_run_discover (c : Preloaded) (s : Session σ) : ∃ searchPaths catalog s',
    (discover c).run s = (.ok { c with searchPaths, catalog }, s') :=
  ⟨_, _, _, rfl⟩

end Action

end Confinement
