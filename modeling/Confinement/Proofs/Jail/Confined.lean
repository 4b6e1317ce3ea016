import Confinement.Proofs.Identity
import Confinement.Proofs.Jail.Target

/-!
# Confined before anything is asked

The child first confines itself (`confine`) and then runs its target
(`runTarget`).  The first part asks the loader nothing.  If one of its calls
fails, so does the child, and there is no second part (`run_confine_of_denied`);
if none does, root, directory and identity are settled
(`run_confine_of_not_denied`) and the second part leaves them as they are, so
every question that it asks finds them so (`run_runTarget`).

`runInJail_confined` puts the two together, for every loader and every pattern
of refusals.
-/

namespace Confinement

variable {σ : Type}

/-- The process could not be confined. -/
def Failure.isConfinement : Failure → Bool
  | .jail _ => true
  | .privilege _ => true
  | _ => false

/-- The question runs an entry point. -/
def Call.isInvoke : Call → Bool
  | .invoke .. => true
  | _ => false

/-- No entry point is run for what an object needs. -/
theorem Loader.Pursued.isInvoke {ld : Loader σ} {fs : FileSystem} {directories : List Path}
    {path : Path} {call : Call} (h : ld.Pursued fs directories path call) :
    call.isInvoke = false := by
  cases h <;> rfl

namespace JailPlan

/-- A call that is to confine the process fails, or its identity turns out to
be another. -/
inductive Denied (plan : JailPlan) (s : Session σ) : Prop
  | root {e : Errno} : Action.changeRoot s plan.jailRoot = .error e → Denied plan s
  | directory {e : Errno} : s.kernel .changeDirectory = some e → Denied plan s
  | identity : s.ids.IsRefused s.kernel → Denied plan s
  | verification {expected real effective : Identity} :
      (s.ids.reassert s.kernel).1 = .error (.unverified expected real effective) → Denied plan s

/-- A process that was started in the session `s` and stands confined in
`s'`. -/
structure InForce (plan : JailPlan) (s s' : Session σ) : Prop where
  root : ∃ mode entries, s.fs.find true plan.jailRoot = .ok (s'.fs.root, .directory mode entries)
  cwd : s'.fs.cwd = s'.fs.root
  ids : s'.ids = s.ids.reasserted
  env : s'.env = s.env
  journal : s'.journal = s.journal

/-- The circumstances of a question asked as planned, by a process that was
started in the session `s`. -/
structure Confined (plan : JailPlan) (s : Session σ) (r : Record) : Prop where
  root : ∃ mode entries, s.fs.find true plan.jailRoot = .ok (r.root, .directory mode entries)
  cwd : r.cwd = r.root
  user : r.ids.user = .all s.ids.user.real
  group : r.ids.group = .all s.ids.group.real
  arguments : r.arguments =
    (plan.arguments.map Path.bytes).or (s.env.get? Action.argumentsVariable)

end JailPlan

namespace Action

variable {ld : Loader σ} {plan : JailPlan} {s : Session σ}

/-! ## The process confined -/

/-- Root, directory and identity settled. -/
def confine (root : Path) : Action σ Failure IdentityChange := do
  enterJail root
  assertIdentity

/-- A change of root leads to the directory at the path, and changes nothing
else. -/
theorem exists_of_changeRoot_eq_ok {root : Path} {s' : Session σ}
    (h : changeRoot s root = .ok s') : ∃ l mode entries,
      s.fs.find true root = .ok (l, .directory mode entries) ∧
      s' = { s with fs := { s.fs with root := l } } := by
  -- Of all the answers only the last goes on, and it is the one that has found a directory.
  rw [changeRoot] at h
  split at h
  · cases h
  · cases h
  · rename_i l mode entries hfind
    split at h
    · cases h
    · split at h
      · cases h
      · split at h
        · cases h
          exact ⟨l, mode, entries, hfind, rfl⟩
        · cases h
  · cases h

theorem run_enterJail_of_changeRoot {root : Path} {e : Errno}
    (h : changeRoot s root = .error e) :
    ∃ text, (enterJail root).run s = (.error (.failed (.jail text)), s) := by
  refine ⟨"chroot(" ++ root.display ++ ") failed: " ++ e.symbol, ?_⟩
  rw [enterJail, run_bind_of_ok (run_get s), h]
  rfl

theorem run_enterJail_of_ok {root : Path} {s' : Session σ} (h : changeRoot s root = .ok s') :
    (enterJail root).run s = match changeToRoot s' with
      | .error e =>
        (.error (.failed (.jail ("Failed to change to chroot root: " ++ e.symbol))), s')
      | .ok s'' =>
        (.ok (), { s'' with log := s''.log ++ [⟨.debug, "Entered jail " ++ root.display⟩] }) := by
  rw [enterJail, run_bind_of_ok (run_get s), h,
    run_bind_of_ok (a := ⟨⟩) (run_set_eq_ok.mpr rfl), run_bind_of_ok (run_get s')]
  cases changeToRoot s' <;> rfl

theorem exists_run_confine {root : Path} {l : Location}
    (hroot : changeRoot s root = .ok { s with fs := { s.fs with root := l } })
    (hdirectory : s.kernel .changeDirectory = none) : ∃ fs log, (confine root).run s =
      ((s.ids.reassert s.kernel).1.mapError fun fault => Stop.failed (.privilege fault.message),
        { s with fs, ids := (s.ids.reassert s.kernel).2, log }) ∧ fs.root = l ∧ fs.cwd = l := by
  have hrun := run_enterJail_of_ok hroot
  simp only [changeToRoot, hdirectory] at hrun
  obtain ⟨log, hassert⟩ := run_assertIdentity { s with
    fs := { s.fs with root := l, cwd := l },
    log := s.log ++ [⟨.debug, "Entered jail " ++ root.display⟩] }
  exact ⟨_, log, (run_bind_of_ok hrun).trans hassert, rfl, rfl⟩

/-- A process that cannot be confined fails, and has asked nothing. -/
theorem run_confine_of_denied (h : plan.Denied s) : ∃ e s',
    (confine plan.jailRoot).run s = (.error (.failed e), s') ∧ e.isConfinement = true ∧
      s'.journal = s.journal := by
  cases hroot : changeRoot s plan.jailRoot with
  | error e =>
      obtain ⟨text, hrun⟩ := run_enterJail_of_changeRoot hroot
      exact ⟨_, s, run_bind_of_error hrun, rfl, rfl⟩
  | ok s₁ =>
      obtain ⟨l, _, _, -, rfl⟩ := exists_of_changeRoot_eq_ok hroot
      cases hdirectory : s.kernel .changeDirectory with
      | some e =>
          have hrun := run_enterJail_of_ok hroot
          simp only [changeToRoot, hdirectory] at hrun
          exact ⟨_, _, run_bind_of_error hrun, rfl, rfl⟩
      | none =>
          -- Only the identity is left to be refused.
          have hrefused : s.ids.IsRefused s.kernel := by
            cases h with
            | root h => rw [hroot] at h; cases h
            | directory h => rw [hdirectory] at h; cases h
            | identity h => exact h
            | verification h =>
                by_contra hnot
                rw [Credentials.reassert_of_not_isRefused hnot] at h
                cases h
          obtain ⟨fault, hfault, -⟩ := Credentials.reassert_of_isRefused hrefused
          obtain ⟨fs, log, hrun, -, -⟩ := exists_run_confine hroot hdirectory
          rw [hfault] at hrun
          exact ⟨_, _, hrun, rfl, rfl⟩

/-- A process that is not refused anything is confined. -/
theorem run_confine_of_not_denied (h : ¬ plan.Denied s) : ∃ change s',
    (confine plan.jailRoot).run s = (.ok change, s') ∧ plan.InForce s s' := by
  -- The three refusals in the order in which they would come: the root, the directory, the
  -- identity.
  cases hroot : changeRoot s plan.jailRoot with
  | error e => exact absurd (.root hroot) h
  | ok s₁ =>
      obtain ⟨l, mode, entries, hfind, rfl⟩ := exists_of_changeRoot_eq_ok hroot
      cases hdirectory : s.kernel .changeDirectory with
      | some e => exact absurd (.directory hdirectory) h
      | none =>
          have hgranted : ¬ s.ids.IsRefused s.kernel := fun hrefused => h (.identity hrefused)
          obtain ⟨fs, log, hrun, rfl, hcwd⟩ := exists_run_confine hroot hdirectory
          rw [Credentials.reassert_of_not_isRefused hgranted] at hrun
          exact ⟨_, _, hrun, ⟨mode, entries, hfind⟩, hcwd, rfl, rfl, rfl⟩

/-! ## The target run -/

/-- What follows once the process is confined. -/
def runTarget (ld : Loader σ) (plan : JailPlan) : Action σ Failure Unit := do
  let standpoint :=
    plan.hostStandpoint.insideJail (← files) plan.moduleDirectory plan.distinct plan.staging
  debug ("[" ++ (← get).runId ++ "] Inside jail at " ++ standpoint.cwd.display ++
    " (staged under " ++ standpoint.stagingRoot.display ++ "), search paths: [" ++
    String.intercalate ", " (standpoint.searchPaths.map Text.quotePath) ++ "]")
  exposeArguments plan.arguments
  loadAndInvoke ld plan.module plan.entryPoint standpoint.searchPaths plan.suffix

theorem runInJail_eq (ld : Loader σ) (plan : JailPlan) :
    runInJail ld plan = confine plan.jailRoot >>= fun _ => runTarget ld plan := by
  rw [confine, bind_assoc]
  rfl

/-- The environment with the argument file, which takes the place of an
inherited one. -/
def exposed (arguments : Option Path) (env : Environment) : Environment :=
  match arguments with
  | none => env
  | some path => env.set argumentsVariable path.bytes

theorem get?_exposed (arguments : Option Path) (env : Environment) :
    (exposed arguments env).get? argumentsVariable =
      (arguments.map Path.bytes).or (env.get? argumentsVariable) := by
  cases arguments with
  | none => rfl
  | some path => simp [exposed, Environment.set, Environment.get?]

theorem run_exposeArguments (arguments : Option Path) (s : Session σ) :
    (∃ life, (exposeArguments arguments).run s = (.error (.ended life), s)) ∨
      (exposeArguments arguments).run s = (.ok (), { s with env := exposed arguments s.env }) := by
  cases arguments with
  | none => exact .inr rfl
  | some path =>
      rw [exposeArguments]
      split
      · exact .inl ⟨_, rfl⟩
      · exact .inr rfl

theorem confined_entry {s' : Session σ} (h : plan.InForce s s') (call : Call) :
    plan.Confined s ({ s' with env := exposed plan.arguments s'.env }.entry call) where
  root := h.root
  cwd := h.cwd
  user := congrArg Credentials.user h.ids
  group := congrArg Credentials.group h.ids
  arguments := by
    rw [← h.env]
    exact get?_exposed plan.arguments s'.env

theorem isConfinement_entryFailure (module : String) (e : UnitError) :
    (entryFailure module e).isConfinement = false := by
  cases e <;> rfl

/-- The entry point comes last, if at all, and a failure is the target's. -/
theorem run_loadAndInvoke (ld : Loader σ) (module entryPoint : String) (directories : List Path)
    (suffix : String) (s : Session σ) : ∃ asked invoked,
      ((loadAndInvoke ld module entryPoint directories suffix).run s).2.journal =
        s.journal ++ (asked ++ invoked).map s.entry ∧
      (∀ call ∈ asked, call.isInvoke = false) ∧
      (invoked = [] ∨ ∃ origin, invoked = [.invoke origin entryPoint]) ∧
      ∀ e, ((loadAndInvoke ld module entryPoint directories suffix).run s).1 =
        .error (.failed e) → e.isConfinement = false := by
  have htraces : Traces s.fs (openTarget ld module directories suffix) fun r calls =>
      (∀ call ∈ calls, call.isInvoke = false) ∧
        ∀ stop, r = .error stop → ∃ reason, stop = .failed (.target module reason) := by
    cases hresolve : resolveModule s.fs module directories (some suffix) with
    | none =>
        apply (traces_openTarget_of_none hresolve).mono
        rintro _ _ ⟨⟨reason, rfl⟩, rfl⟩
        refine ⟨fun _ hcall => absurd hcall List.not_mem_nil, ?_⟩
        rintro _ ⟨⟩
        exact ⟨reason, rfl⟩
    | some target =>
        apply (traces_openTarget hresolve).mono
        intro r calls hopened
        refine ⟨hopened.forall_mem (fun call hcall => hcall.isInvoke) rfl, ?_⟩
        rintro stop rfl
        exact hopened.1
  rcases run_loadAndInvoke_cases ld module entryPoint directories suffix s htraces with
    ⟨stop, calls, ⟨hasked, hreason⟩, hresult, hjournal⟩ |
    ⟨unit, calls, r, ⟨hasked, -⟩, hresult, hjournal⟩
  · refine ⟨calls, [], by simpa using hjournal, hasked, .inl rfl, ?_⟩
    intro e he
    obtain ⟨reason, rfl⟩ := hreason stop rfl
    rw [hresult] at he
    cases he
    rfl
  · refine ⟨calls, _, hjournal, hasked, .inr ⟨unit.origin, rfl⟩, ?_⟩
    intro e he
    rw [hresult] at he
    rcases r with (u | life) | u
    · cases he
      exact isConfinement_entryFailure module u
    · cases he
    · cases he

/-- Every question of the second part is asked in the same circumstances. -/
theorem run_runTarget (ld : Loader σ) (plan : JailPlan) (s : Session σ) : ∃ asked invoked,
    ((runTarget ld plan).run s).2.journal = s.journal ++
      (asked ++ invoked).map { s with env := exposed plan.arguments s.env }.entry ∧
    (∀ call ∈ asked, call.isInvoke = false) ∧
    (invoked = [] ∨ ∃ origin, invoked = [.invoke origin plan.entryPoint]) ∧
    ∀ e, ((runTarget ld plan).run s).1 = .error (.failed e) → e.isConfinement = false := by
  -- Surveying the search path only reads and adds to the log.
  obtain ⟨directories, log, hrun⟩ : ∃ directories log, (runTarget ld plan).run s =
      (exposeArguments plan.arguments >>= fun _ =>
        loadAndInvoke ld plan.module plan.entryPoint directories plan.suffix).run
        { s with log } := ⟨_, _, rfl⟩
  rw [hrun]
  rcases run_exposeArguments plan.arguments { s with log } with ⟨life, hexpose⟩ | hexpose
  · rw [run_bind_of_error hexpose]
    refine ⟨[], [], by simp, by simp, .inl rfl, ?_⟩
    rintro e ⟨⟩
  · rw [run_bind_of_ok hexpose]
    exact run_loadAndInvoke ld plan.module plan.entryPoint directories plan.suffix _

/-! ## Both parts -/

theorem run_runInJail_of_denied (ld : Loader σ) (h : plan.Denied s) : ∃ e s',
    (runInJail ld plan).run s = (.error (.failed e), s') ∧ e.isConfinement = true ∧
      s'.journal = s.journal := by
  obtain ⟨e, s', hrun, he, hjournal⟩ := run_confine_of_denied h
  rw [runInJail_eq, run_bind_of_error hrun]
  exact ⟨e, s', rfl, he, hjournal⟩

theorem run_runInJail_of_not_denied (ld : Loader σ) (h : ¬ plan.Denied s) : ∃ asked invoked,
    ((runInJail ld plan).run s).2.journal = s.journal ++ (asked ++ invoked) ∧
    (∀ r ∈ asked ++ invoked, plan.Confined s r) ∧
    (∀ r ∈ asked, r.call.isInvoke = false) ∧
    (invoked = [] ∨ ∃ r origin, invoked = [r] ∧ r.call = .invoke origin plan.entryPoint) ∧
    ∀ e, ((runInJail ld plan).run s).1 = .error (.failed e) → e.isConfinement = false := by
  obtain ⟨_, s', hrun, hforce⟩ := run_confine_of_not_denied h
  rw [runInJail_eq, run_bind_of_ok hrun]
  obtain ⟨asked, invoked, hjournal, hasked, hinvoked, hfailure⟩ := run_runTarget ld plan s'
  rw [hjournal, hforce.journal]
  refine ⟨_, _, by rw [List.map_append], ?_, ?_, ?_, hfailure⟩
  · rw [← List.map_append]
    exact List.forall_mem_map.mpr fun call _ => confined_entry hforce call
  · exact List.forall_mem_map.mpr hasked
  · rcases hinvoked with rfl | ⟨origin, rfl⟩
    · exact .inl rfl
    · exact .inr ⟨_, origin, rfl, rfl⟩

/-- A process that cannot be confined as planned fails at that and asks
nothing.  Any other asks its questions under confinement only, runs the entry
point once at most and after all other questions, and does not fail at being
confined.  Its exit status tells whether it failed. -/
theorem runInJail_confined (ld : Loader σ) (plan : JailPlan) (s : Session σ) :
    (plan.Denied s ↔
      ∃ e, ((runInJail ld plan).run s).1 = .error (.failed e) ∧ e.isConfinement = true) ∧
    (∃ asked invoked, ((runInJail ld plan).run s).2.journal = s.journal ++ (asked ++ invoked) ∧
      (plan.Denied s → asked ++ invoked = []) ∧
      (∀ r ∈ asked ++ invoked, plan.Confined s r) ∧
      (∀ r ∈ asked, r.call.isInvoke = false) ∧
      (invoked = [] ∨ ∃ r origin, invoked = [r] ∧ r.call = .invoke origin plan.entryPoint)) ∧
    match ((runInJail ld plan).run s).1 with
    | .ok () => (childLife ld plan s).1 = .ended (.exited 0)
    | .error (.failed _) => (childLife ld plan s).1 = .ended (.exited 1)
    | .error (.ended life) => (childLife ld plan s).1 = life := by
  refine ⟨?_, ?_, ?_⟩
  · constructor
    · intro hdenied
      obtain ⟨e, s', hrun, he, -⟩ := run_runInJail_of_denied ld hdenied
      rw [hrun]
      exact ⟨e, rfl, he⟩
    · rintro ⟨e, hresult, he⟩
      -- A process that is not denied fails at something else.
      by_contra hdenied
      obtain ⟨_, _, -, -, -, -, hfailure⟩ := run_runInJail_of_not_denied ld hdenied
      rw [hfailure e hresult] at he
      cases he
  · by_cases hdenied : plan.Denied s
    · obtain ⟨e, s', hrun, -, hjournal⟩ := run_runInJail_of_denied ld hdenied
      rw [hrun]
      exact ⟨[], [], by simpa using hjournal, fun _ => rfl, by simp, by simp, .inl rfl⟩
    · obtain ⟨asked, invoked, hjournal, hconfined, hasked, hinvoked, -⟩ :=
        run_runInJail_of_not_denied ld hdenied
      exact ⟨asked, invoked, hjournal, fun h => absurd h hdenied, hconfined, hasked, hinvoked⟩
  · rw [childLife]
    cases (runInJail ld plan).run s with
    | mk result after =>
        rcases result with (e | life) | u <;> rfl

end Action

end Confinement
