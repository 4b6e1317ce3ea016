import Confinement.CommandLine.Run
import Confinement.Proofs.Caller.Chain
import Confinement.Proofs.Caller.Launch
import Confinement.Proofs.Caller.Survey

/-!
# The course of a run

A run is a row of steps, and `Passes` says which states it gets to, each in
which session.  What is left of the run in such a state is `remainder`, and the
run ends as its remainder does (`run_execute_of_passes`).

Up to the catalog nothing but the loader takes notice of the run
(`Passes.untouched`).  Each step on the way goes on or refuses
(`refused_or_passes`), and what follows the catalog is a short tail.
`Course` sums it up.
-/

namespace Confinement

/-- The states of a call before it is launched. -/
inductive Phase where
  | prepared (c : Prepared)
  | configured (c : Configured)
  | preloaded (c : Preloaded)
  | discovered (c : Discovered)
  | staged (c : Staged)

/-- What a state knew from the beginning. -/
def Phase.toPrepared : Phase → Prepared
  | .prepared c => c
  | .configured c => c.toPrepared
  | .preloaded c => c.toPrepared
  | .discovered c => c.toPrepared
  | .staged c => c.toPrepared

/-- Something was staged. -/
def Phase.isStaged : Phase → Bool
  | .staged _ => true
  | _ => false

namespace CommandLine

open Confinement.Action

variable {σ : Type} {ld : Loader σ} {o : Options} {cmd : Path} {s : Session σ}
  {config : Configuration}

/-- The states that a run gets to from the session `s` with the configuration
`config`. -/
inductive Passes (ld : Loader σ) (o : Options) (cmd : Path) (s : Session σ)
    (config : Configuration) : Phase → Session σ → Prop
  | prepare {log : Log} {c : Prepared} {s' : Session σ} :
      Configuration.load s.fs o.config = (.ok config, log) →
      (prepare (o.invocation cmd) config).run { s with log := s.log ++ log } = (.ok c, s') →
        Passes ld o cmd s config (.prepared c) s'
  | configure {c : Prepared} {c' : Configured} {s₁ s₂ : Session σ} :
      Passes ld o cmd s config (.prepared c) s₁ → (configure c).run s₁ = (.ok c', s₂) →
        Passes ld o cmd s config (.configured c') s₂
  | preload {c : Configured} {c' : Preloaded} {s₁ s₂ : Session σ} :
      Passes ld o cmd s config (.configured c) s₁ → (preloadCall ld c).run s₁ = (.ok c', s₂) →
        Passes ld o cmd s config (.preloaded c') s₂
  | discover {c : Preloaded} {c' : Discovered} {s₁ s₂ : Session σ} :
      Passes ld o cmd s config (.preloaded c) s₁ → (discover c).run s₁ = (.ok c', s₂) →
        Passes ld o cmd s config (.discovered c') s₂
  | stage {c : Discovered} {c' : Staged} {s₁ s₂ : Session σ} :
      Passes ld o cmd s config (.discovered c) s₁ → o.listOnly = false →
      (stage c).run s₁ = (.ok c', s₂) → Passes ld o cmd s config (.staged c') s₂

/-- The failures by which a run is refused before it has a catalog. -/
inductive Refused (ld : Loader σ) (o : Options) (cmd : Path) (s : Session σ) : Failure → Prop
  | configuration {p : Configuration.Problem} {log : Log} :
      Configuration.load s.fs o.config = (.error p, log) →
        Refused ld o cmd s (.configuration p.message)
  | listFile {config : Configuration} {c : Prepared} {s₁ : Session σ} {list : Path}
      {u : ExtensionSet.Unreadable} {log : Log} :
      Passes ld o cmd s config (.prepared c) s₁ → o.listFile = some list →
      ExtensionSet.mergeFile s₁.fs .baseline list = (.error u, log) →
        Refused ld o cmd s (.configuration u.message)
  | preload {config : Configuration} {c : Configured} {s₁ s₂ : Session σ} {e : Failure} :
      Passes ld o cmd s config (.configured c) s₁ →
      (openExtensions ld c).run s₁ = (.error (.failed e), s₂) → Refused ld o cmd s e
  | moduleName {config : Configuration} {c : Configured} {s₁ s₂ : Session σ}
      {residents : List Resident} {n : Invocation.Nameless} :
      Passes ld o cmd s config (.configured c) s₁ →
      (openExtensions ld c).run s₁ = (.ok residents, s₂) →
      (o.invocation cmd).moduleName = .error n → Refused ld o cmd s (.configuration n.message)
  | nameClash {config : Configuration} {c : Configured} {s₁ s₂ : Session σ}
      {residents : List Resident} {module : String} {origin : Path} :
      Passes ld o cmd s config (.configured c) s₁ →
      (openExtensions ld c).run s₁ = (.ok residents, s₂) →
      (o.invocation cmd).moduleName = .ok module →
      ((Registry.ofHost s₂.fs).1.registerResidents residents).originOf? module = some origin →
        Refused ld o cmd s (.nameClash module origin.display)

/-! ## What is left of a run -/

/-- What is left once a call is staged. -/
def depart (ld : Loader σ) (o : Options) (config : Configuration) (c : Staged) :
    Action σ Failure Int32 := do
  let handle ← launch ld c
  if o.wait || config.wait then
    let outcome ← handle.wait
    info ("Child finished: " ++ outcome.describe)
    return outcome.exitStatus
  else return 0

/-- What is left once there is a catalog. -/
def conclude (ld : Loader σ) (o : Options) (config : Configuration) (c : Discovered) :
    Action σ Failure Int32 := do
  if c.invocation.listOnly then
    print (renderCatalog c.catalog o.json)
    return 1
  else depart ld o config (← stage c)

/-- What is left of a run in each state. -/
def remainder (ld : Loader σ) (o : Options) (config : Configuration) :
    Phase → Action σ Failure Int32
  | .prepared c => do conclude ld o config (← discover (← preloadCall ld (← configure c)))
  | .configured c => do conclude ld o config (← discover (← preloadCall ld c))
  | .preloaded c => do conclude ld o config (← discover c)
  | .discovered c => conclude ld o config c
  | .staged c => depart ld o config c

theorem execute_eq (ld : Loader σ) (o : Options) (cmd : Path) : execute ld o cmd = (do
    let (loaded, log) := Configuration.load (← files) o.config
    note log
    let config ← lift (loaded.mapError fun p => .configuration p.message)
    remainder ld o config (.prepared (← prepare (o.invocation cmd) config))) :=
  rfl

theorem run_execute_of_misconfigured (ld : Loader σ) (cmd : Path) {p : Configuration.Problem}
    {log : Log} (h : Configuration.load s.fs o.config = (.error p, log)) :
    (execute ld o cmd).run s =
      (.error (.failed (.configuration p.message)), { s with log := s.log ++ log }) := by
  rw [execute_eq, run_bind_of_ok (run_files s), h]
  rfl

/-! ## In each state -/

/-- No state forgets the command line or the configuration. -/
theorem Passes.toPrepared_eq {phase : Phase} {s' : Session σ}
    (h : Passes ld o cmd s config phase s') :
    phase.toPrepared.invocation = o.invocation cmd ∧ phase.toPrepared.config = config := by
  induction h with
  | prepare _ hrun =>
      obtain ⟨entries, _, hprepare⟩ := exists_run_prepare (o.invocation cmd) config _
      rw [hprepare] at hrun
      cases hrun
      exact ⟨rfl, rfl⟩
  | configure _ hrun ih =>
      obtain rfl := toPrepared_of_configure hrun
      exact ih
  | preload _ hrun ih =>
      obtain rfl := toConfigured_of_preloadCall hrun
      exact ih
  | discover _ hrun ih =>
      obtain ⟨_, _, _, hdiscover⟩ := exists_run_discover _ _
      rw [hdiscover] at hrun
      cases hrun
      exact ih
  | stage _ _ hrun ih =>
      obtain ⟨-, -, rfl, -⟩ := run_stage_eq_ok hrun
      exact ih

theorem Passes.invocation_eq {c : Discovered} {s₁ : Session σ}
    (h : Passes ld o cmd s config (.discovered c) s₁) : c.invocation = o.invocation cmd :=
  h.toPrepared_eq.1

theorem Passes.config_eq {c : Discovered} {s₁ : Session σ}
    (h : Passes ld o cmd s config (.discovered c) s₁) : c.config = config :=
  h.toPrepared_eq.2

theorem Passes.conclude_eq {c : Discovered} {s₁ : Session σ}
    (h : Passes ld o cmd s config (.discovered c) s₁) (hlist : o.listOnly = false) :
    conclude ld o config c = Action.stage c >>= depart ld o config := by
  have hlaunches : ¬ c.invocation.listOnly = true := by
    rw [h.invocation_eq]
    simp [Options.invocation, hlist]
  rw [conclude, if_neg hlaunches]

/-- Until something is staged, extensions are opened and nothing else is
done. -/
theorem Passes.untouched {phase : Phase} {s' : Session σ}
    (h : Passes ld o cmd s config phase s') (hphase : phase.isStaged = false) :
    Untouched s s' := by
  induction h with
  | prepare _ hrun =>
      exact (Untouched.of_quiet ⟨_, rfl⟩).trans (.of_run (surveys_prepare _ _) hrun)
  | configure _ hrun ih => exact (ih rfl).trans (.of_run (surveys_configure _) hrun)
  | preload _ hrun ih => exact (ih rfl).trans (.of_run (surveys_preloadCall _) hrun)
  | discover _ hrun ih => exact (ih rfl).trans (.of_run (surveys_discover _) hrun)
  | stage => cases hphase

/-- A run ends as its remainder does in any state that it gets to. -/
theorem run_execute_of_passes {phase : Phase} {s' : Session σ}
    (h : Passes ld o cmd s config phase s') :
    (execute ld o cmd).run s = (remainder ld o config phase).run s' := by
  -- Each step that was passed comes off the front of the run.
  induction h with
  | @prepare log c s' hload hrun =>
      rw [execute_eq, run_bind_of_ok (run_files s), hload]
      dsimp only
      rw [run_bind_of_ok (run_note log s),
        run_bind_of_ok (run_lift_eq_ok.mpr ⟨mapError_eq_ok.mpr rfl, rfl⟩)]
      exact run_bind_of_ok hrun
  | configure _ hrun ih => exact ih.trans (run_bind_of_ok hrun)
  | preload _ hrun ih => exact ih.trans (run_bind_of_ok hrun)
  | discover _ hrun ih => exact ih.trans (run_bind_of_ok hrun)
  | stage hpasses hlist hrun ih =>
      rw [ih, remainder, hpasses.conclude_eq hlist]
      exact run_bind_of_ok hrun

/-! ## Refusals -/

theorem exists_run_execute_of_error {phase : Phase} {s₁ s₂ : Session σ} {α : Type}
    {a : Action σ Failure α} {f : α → Action σ Failure Int32} {e : Failure}
    (h : Passes ld o cmd s config phase s₁) (hphase : phase.isStaged = false)
    (hrest : remainder ld o config phase = a >>= f) (ha : Surveys s₁.fs a)
    (hrun : a.run s₁ = (.error (.failed e), s₂)) :
    ∃ s', (execute ld o cmd).run s = (.error (.failed e), s') ∧ Untouched s s' := by
  rw [run_execute_of_passes h, hrest, run_bind_of_error hrun]
  exact ⟨s₂, rfl, (h.untouched hphase).trans (.of_run ha hrun)⟩

/-- A refused run ends with the failure it was refused by, and has done
nothing. -/
theorem exists_run_execute_of_refused {e : Failure} (h : Refused ld o cmd s e) :
    ∃ s', (execute ld o cmd).run s = (.error (.failed e), s') ∧ Untouched s s' := by
  -- Each refusal names the step that fails; up to it extensions are opened at most.
  cases h with
  | configuration hload =>
      exact ⟨_, run_execute_of_misconfigured ld cmd hload, .of_quiet ⟨_, rfl⟩⟩
  | @listFile config c s₁ list u log hpasses hlist hmerge =>
      have hinvocation : c.invocation = o.invocation cmd := hpasses.toPrepared_eq.1
      have hlisted : c.invocation.listFile = some list := by
        rw [hinvocation]
        exact hlist
      obtain ⟨s₂, hrun⟩ := exists_run_configure_of_unreadable hlisted hmerge
      exact exists_run_execute_of_error hpasses rfl rfl (surveys_configure c) hrun
  | @preload config c _ _ e hpasses hopen =>
      obtain ⟨s', hrun⟩ := exists_run_preloadCall_of_error hopen
      exact exists_run_execute_of_error hpasses rfl rfl (surveys_preloadCall c) hrun
  | @moduleName config c s₁ s₂ residents n hpasses hopen hname =>
      have hinvocation : c.invocation = o.invocation cmd := hpasses.toPrepared_eq.1
      obtain ⟨s', hrun⟩ := exists_run_preloadCall_of_ok hopen
      have hrefused : nameTarget c residents s₂.fs = .error (.configuration n.message) := by
        rw [nameTarget, hinvocation]
        simp only [hname]
      rw [hrefused] at hrun
      exact exists_run_execute_of_error hpasses rfl rfl (surveys_preloadCall c) hrun
  | @nameClash config c s₁ s₂ residents module origin hpasses hopen hname hclash =>
      have hinvocation : c.invocation = o.invocation cmd := hpasses.toPrepared_eq.1
      obtain ⟨s', hrun⟩ := exists_run_preloadCall_of_ok hopen
      have hrefused : nameTarget c residents s₂.fs = .error (.nameClash module origin.display) := by
        rw [nameTarget, hinvocation]
        simp only [hname, hclash]
      rw [hrefused] at hrun
      exact exists_run_execute_of_error hpasses rfl rfl (surveys_preloadCall c) hrun

/-- A call with its final set of extensions is refused, or comes to have a
catalog. -/
theorem Passes.refused_or_discovered {c : Configured} {s₁ : Session σ}
    (h : Passes ld o cmd s config (.configured c) s₁) : (∃ e, Refused ld o cmd s e) ∨
      ∃ d s₂, Passes ld o cmd s config (.discovered d) s₂ := by
  cases hopen : (openExtensions ld c).run s₁ with
  | mk result s₂ =>
      rcases result with (e | life) | residents
      · exact .inl ⟨e, .preload h hopen⟩
      · -- Opening an object does not end the process.
        have hsurveys : Surveys s₁.fs (openExtensions ld c) := surveys_preload _ _ _ _
        obtain ⟨_, -, honly⟩ := hsurveys s₁ rfl
        rw [hopen] at honly
        exact absurd rfl (honly.ne_ended life)
      · cases hname : (o.invocation cmd).moduleName with
        | error n => exact .inl ⟨_, .moduleName h hopen hname⟩
        | ok module =>
            cases hfree : ((Registry.ofHost s₂.fs).1.registerResidents residents).originOf?
                module with
            | some origin => exact .inl ⟨_, .nameClash h hopen hname hfree⟩
            | none =>
                have hinvocation : c.invocation = o.invocation cmd := h.toPrepared_eq.1
                obtain ⟨s₃, hpreload⟩ := exists_run_preloadCall_of_ok hopen
                rw [nameTarget, hinvocation] at hpreload
                simp only [hname, hfree] at hpreload
                obtain ⟨_, _, s₄, hdiscover⟩ := exists_run_discover _ s₃
                exact .inr ⟨_, s₄, (h.preload hpreload).discover hdiscover⟩

theorem refused_or_passes (ld : Loader σ) (o : Options) (cmd : Path) (s : Session σ) :
    (∃ e, Refused ld o cmd s e) ∨
      ∃ config c s₁, Passes ld o cmd s config (.discovered c) s₁ := by
  cases hload : Configuration.load s.fs o.config with
  | mk loaded log =>
      cases loaded with
      | error p => exact .inl ⟨_, .configuration hload⟩
      | ok config =>
          obtain ⟨entries, s₁, hprepare⟩ :=
            exists_run_prepare (o.invocation cmd) config { s with log := s.log ++ log }
          have hprepared : Passes ld o cmd s config _ s₁ := .prepare hload hprepare
          rcases exists_run_configure ⟨o.invocation cmd, config, entries⟩ s₁ with
            ⟨list, u, log, hlist, hmerge⟩ | ⟨extensions, s₂, hconfigure⟩
          · exact .inl ⟨_, .listFile hprepared hlist hmerge⟩
          · rcases (hprepared.configure hconfigure).refused_or_discovered with hrefused | hpasses
            · exact .inl hrefused
            · exact .inr ⟨config, hpasses⟩

/-! ## After the catalog -/

/-- A launched call adds one child, whatever its caller does then. -/
theorem pids_run_depart (ld : Loader σ) (o : Options) (config : Configuration) (c : Staged)
    (hfork : s.kernel .fork = none) :
    ((depart ld o config c).run s).2.children.map (·.pid) =
        s.children.map (·.pid) ++ [s.nextPid] ∧
      ((depart ld o config c).run s).2.nextPid = s.nextPid + 1 := by
  obtain ⟨s', hlaunch, hnext, hchildren⟩ := exists_run_launch ld c hfork
  have hlaunched : s'.children.map (·.pid) = s.children.map (·.pid) ++ [s.nextPid] := by
    rw [hchildren, List.map_append]
    rfl
  rw [depart, run_bind_of_ok hlaunch, ← hlaunched, ← hnext]
  split
  · -- A wait changes what is known of the child, but adds none.
    have hwaited := ChildHandle.pids_run_wait ⟨s.nextPid⟩ s'
    cases hwait : (ChildHandle.wait ⟨s.nextPid⟩ : Action σ Failure Outcome).run s' with
    | mk result s'' =>
        rw [hwait] at hwaited
        cases result with
        | error e =>
            rw [run_bind_of_error hwait]
            exact hwaited
        | ok outcome =>
            rw [run_bind_of_ok hwait]
            exact hwaited
  · exact ⟨rfl, rfl⟩

/-- A caller that does not wait does not care how the child ends. -/
theorem run_depart_of_not_waiting (ld : Loader σ) (c : Staged) (hfork : s.kernel .fork = none)
    (hwait : (o.wait || config.wait) = false) : ((depart ld o config c).run s).1 = .ok 0 := by
  obtain ⟨s', hlaunch, -, -⟩ := exists_run_launch ld c hfork
  rw [depart, run_bind_of_ok hlaunch, hwait]
  rfl

/-- A caller that waits ends with the status of its child. -/
theorem run_depart_of_waiting (ld : Loader σ) (c : Staged) {outcome : Outcome}
    (hfresh : ∀ child ∈ s.children, child.pid ≠ s.nextPid) (hfork : s.kernel .fork = none)
    (hwait : (o.wait || config.wait) = true)
    (hlife : (childLife ld (Staged.plan c s.fs) s).1 = .ended outcome)
    (hreportable : outcome.isReportable = true) :
    ((depart ld o config c).run s).1 = .ok outcome.exitStatus := by
  obtain ⟨s', hlaunch, -, hchildren⟩ := exists_run_launch ld c hfork
  have hended : (ChildHandle.mk s.nextPid).life s' = .ended outcome :=
    (ChildHandle.life_of_append hfresh hchildren).trans hlife
  have hrun := ChildHandle.run_wait_of_ended hended
  rw [hreportable] at hrun
  rw [depart, run_bind_of_ok hlaunch, hwait, if_pos rfl, run_bind_of_ok hrun]
  rfl

variable {c : Discovered} {c' : Staged} {s₁ s₂ : Session σ} {root : Path}

theorem run_execute_of_listed (h : Passes ld o cmd s config (.discovered c) s₁)
    (hlist : o.listOnly = true) : (execute ld o cmd).run s =
      (.ok 1, { s₁ with stdout := s₁.stdout ++ renderCatalog c.catalog o.json }) := by
  have hlists : c.invocation.listOnly = true := by
    rw [h.invocation_eq]
    exact hlist
  rw [run_execute_of_passes h, remainder, conclude, if_pos hlists]
  rfl

theorem run_execute_of_rootless {p : RootProblem}
    (h : Passes ld o cmd s config (.discovered c) s₁) (hlist : o.listOnly = false)
    (hroot : validateRoot s₁.fs o.root = .error p) :
    (execute ld o cmd).run s = (.error (.failed (.configuration p.message)), s₁) := by
  have hrootless : validateRoot s₁.fs c.invocation.root = .error p := by
    rw [h.invocation_eq]
    exact hroot
  rw [run_execute_of_passes h, remainder, h.conclude_eq hlist,
    run_bind_of_error (run_stage_of_rootless hrootless)]

theorem Passes.exists_run_stage {result : Except Failure StagingReport} {scene : Stage.Scene}
    (h : Passes ld o cmd s config (.discovered c) s₁) (hroot : validateRoot s₁.fs o.root = .ok root)
    (hstage : Stage.run ⟨root, config.stagingPrefix⟩ s₁.fs c.searchPaths = (result, scene)) :
    ∃ log, (Action.stage c).run s₁ =
      ((result.map fun report => { c with jailRoot := root, report }).mapError .failed,
        { s₁ with fs := scene.fs, log }) := by
  apply Action.exists_run_stage
  · rw [h.invocation_eq]
    exact hroot
  · rw [h.config_eq]
    exact hstage

theorem exists_run_execute_of_unstaged {e : Failure} {scene : Stage.Scene}
    (h : Passes ld o cmd s config (.discovered c) s₁) (hlist : o.listOnly = false)
    (hroot : validateRoot s₁.fs o.root = .ok root)
    (hstage : Stage.run ⟨root, config.stagingPrefix⟩ s₁.fs c.searchPaths = (.error e, scene)) :
    ∃ log, (execute ld o cmd).run s = (.error (.failed e), { s₁ with fs := scene.fs, log }) := by
  obtain ⟨log, hrun⟩ := h.exists_run_stage hroot hstage
  rw [run_execute_of_passes h, remainder, h.conclude_eq hlist, run_bind_of_error hrun]
  exact ⟨log, rfl⟩

theorem Passes.exists_of_staged (h : Passes ld o cmd s config (.staged c') s₂) :
    ∃ s₁ fs log, Passes ld o cmd s config (.discovered c'.toDiscovered) s₁ ∧
      o.listOnly = false ∧ validateRoot s₁.fs o.root = .ok c'.jailRoot ∧
      (Stage.run ⟨c'.jailRoot, config.stagingPrefix⟩ s₁.fs c'.searchPaths).1 = .ok c'.report ∧
      s₂ = { s₁ with fs, log } := by
  cases h with
  | stage hpasses hlist hrun =>
      obtain ⟨hroot, hstage, rfl, fs, log, rfl⟩ := run_stage_eq_ok hrun
      rw [hpasses.invocation_eq] at hroot
      rw [hpasses.config_eq] at hstage
      exact ⟨_, fs, log, hpasses, hlist, hroot, hstage, rfl⟩

theorem Passes.frame_of_staged (h : Passes ld o cmd s config (.staged c') s₂) :
    s₂.children = s.children ∧ s₂.nextPid = s.nextPid ∧ s₂.kernel = s.kernel := by
  obtain ⟨s₁, fs, log, hpasses, -, -, -, rfl⟩ := h.exists_of_staged
  obtain ⟨calls, hasks, -⟩ := hpasses.untouched rfl
  exact ⟨hasks.children_eq, hasks.nextPid_eq, hasks.kernel_eq⟩

theorem run_execute_of_unforked {e : Errno} (h : Passes ld o cmd s config (.staged c') s₂)
    (hfork : s.kernel .fork = some e) : (execute ld o cmd).run s =
      (.error (.failed (.child ("fork failed: " ++ e.symbol))), s₂) := by
  obtain ⟨-, -, hkernel⟩ := h.frame_of_staged
  rw [← hkernel] at hfork
  rw [run_execute_of_passes h, remainder, depart,
    run_bind_of_error (run_launch_of_refused ld hfork)]

/-- A run with a catalog starts no child, or is staged. -/
theorem Passes.children_eq_or_staged (h : Passes ld o cmd s config (.discovered c) s₁) :
    ((execute ld o cmd).run s).2.children = s.children ∨
      ∃ c' s₂, Passes ld o cmd s config (.staged c') s₂ := by
  -- Up to here the session has been asked for no child.
  obtain ⟨calls, hasks, -⟩ := h.untouched rfl
  cases hlist : o.listOnly with
  | true =>
      rw [run_execute_of_listed h hlist]
      exact .inl hasks.children_eq
  | false =>
      cases hroot : validateRoot s₁.fs o.root with
      | error p =>
          rw [run_execute_of_rootless h hlist hroot]
          exact .inl hasks.children_eq
      | ok root =>
          cases hstage : Stage.run ⟨root, config.stagingPrefix⟩ s₁.fs c.searchPaths with
          | mk result scene =>
              cases result with
              | error e =>
                  obtain ⟨log, hrun⟩ := exists_run_execute_of_unstaged h hlist hroot hstage
                  rw [hrun]
                  exact .inl hasks.children_eq
              | ok report =>
                  obtain ⟨log, hrun⟩ := h.exists_run_stage hroot hstage
                  exact .inr ⟨_, _, h.stage hlist hrun⟩

theorem exists_staged_of_children_ne
    (hchildren : ((execute ld o cmd).run s).2.children ≠ s.children) :
    ∃ config c' s₂, Passes ld o cmd s config (.staged c') s₂ := by
  rcases refused_or_passes ld o cmd s with ⟨e, hrefused⟩ | ⟨config, c, s₁, hpasses⟩
  · obtain ⟨s', hrun, calls, hasks, -⟩ := exists_run_execute_of_refused hrefused
    rw [hrun] at hchildren
    exact absurd hasks.children_eq hchildren
  · exact ⟨config, hpasses.children_eq_or_staged.resolve_left hchildren⟩

/-- How a run comes about and how it ends. -/
structure Course (ld : Loader σ) (o : Options) (cmd : Path) (s : Session σ) : Prop where
  refused_or_passes : (∃ e, Refused ld o cmd s e) ∨
    ∃ config c s₁, Passes ld o cmd s config (.discovered c) s₁
  /-- A refusal is what the run ends with. -/
  refused : ∀ {e}, Refused ld o cmd s e →
    ∃ s', (execute ld o cmd).run s = (.error (.failed e), s') ∧ Untouched s s'
  untouched : ∀ {config c s₁}, Passes ld o cmd s config (.discovered c) s₁ → Untouched s s₁
  /-- A list is all that is printed. -/
  listed : ∀ {config c s₁}, Passes ld o cmd s config (.discovered c) s₁ → o.listOnly = true →
    (execute ld o cmd).run s =
      (.ok 1, { s₁ with stdout := s₁.stdout ++ renderCatalog c.catalog o.json })
  rootless : ∀ {config c s₁ p}, Passes ld o cmd s config (.discovered c) s₁ →
    o.listOnly = false → validateRoot s₁.fs o.root = .error p →
      (execute ld o cmd).run s = (.error (.failed (.configuration p.message)), s₁)
  unstaged : ∀ {config c s₁ root e scene}, Passes ld o cmd s config (.discovered c) s₁ →
    o.listOnly = false → validateRoot s₁.fs o.root = .ok root →
    Stage.run ⟨root, config.stagingPrefix⟩ s₁.fs c.searchPaths = (.error e, scene) →
      ∃ log, (execute ld o cmd).run s = (.error (.failed e), { s₁ with fs := scene.fs, log })
  staged : ∀ {config c s₁ root report scene}, Passes ld o cmd s config (.discovered c) s₁ →
    o.listOnly = false → validateRoot s₁.fs o.root = .ok root →
    Stage.run ⟨root, config.stagingPrefix⟩ s₁.fs c.searchPaths = (.ok report, scene) →
      ∃ log, Passes ld o cmd s config (.staged { c with jailRoot := root, report })
        { s₁ with fs := scene.fs, log }
  unforked : ∀ {config c s₂ e}, Passes ld o cmd s config (.staged c) s₂ →
    s.kernel .fork = some e →
      (execute ld o cmd).run s = (.error (.failed (.child ("fork failed: " ++ e.symbol))), s₂)
  /-- A staged run starts one child. -/
  forked : ∀ {config c s₂}, Passes ld o cmd s config (.staged c) s₂ → s.kernel .fork = none →
    ((execute ld o cmd).run s).2.children.map (·.pid) = s.children.map (·.pid) ++ [s.nextPid] ∧
      ((execute ld o cmd).run s).2.nextPid = s.nextPid + 1
  /-- No other run starts any. -/
  only_staged : ((execute ld o cmd).run s).2.children ≠ s.children →
    ∃ config c s₁ root report, Passes ld o cmd s config (.discovered c) s₁ ∧
      o.listOnly = false ∧ validateRoot s₁.fs o.root = .ok root ∧
      (Stage.run ⟨root, config.stagingPrefix⟩ s₁.fs c.searchPaths).1 = .ok report
  unwaited : ∀ {config c s₂}, Passes ld o cmd s config (.staged c) s₂ → s.kernel .fork = none →
    o.wait = false → config.wait = false → ((execute ld o cmd).run s).1 = .ok 0
  exited : ∀ {config c s₂ status}, Passes ld o cmd s config (.staged c) s₂ →
    s.kernel .fork = none → (o.wait = true ∨ config.wait = true) →
    (childLife ld (Staged.plan c s₂.fs) s₂).1 = .ended (.exited status) →
      ((execute ld o cmd).run s).1 = .ok status
  signaled : ∀ {config c s₂ signal}, Passes ld o cmd s config (.staged c) s₂ →
    s.kernel .fork = none → (o.wait = true ∨ config.wait = true) →
    (childLife ld (Staged.plan c s₂.fs) s₂).1 = .ended (.signaled signal) →
    1 ≤ signal → signal ≤ namedSignalLimit → ((execute ld o cmd).run s).1 = .ok (128 + signal)

/-- The end of a child that can be told is the end of a run that waits. -/
theorem run_execute_of_waiting {outcome : Outcome}
    (hfresh : ∀ child ∈ s.children, child.pid ≠ s.nextPid)
    (h : Passes ld o cmd s config (.staged c') s₂) (hfork : s.kernel .fork = none)
    (hwait : o.wait = true ∨ config.wait = true)
    (hlife : (childLife ld (Staged.plan c' s₂.fs) s₂).1 = .ended outcome)
    (hreportable : outcome.isReportable = true) :
    ((execute ld o cmd).run s).1 = .ok outcome.exitStatus := by
  obtain ⟨hchildren, hnext, hkernel⟩ := h.frame_of_staged
  rw [← hchildren, ← hnext] at hfresh
  rw [← hkernel] at hfork
  rw [run_execute_of_passes h, remainder]
  exact run_depart_of_waiting ld c' hfresh hfork (by simpa using hwait) hlife hreportable

/-- Whatever the command line, the files, the loader and the child: a run that
is refused before it has a catalog has changed nothing, a list changes nothing,
a child is started once and only for a staged call, and it decides the exit
status if the run waits for it.  The id of a new child is not one that an
earlier child goes by. -/
theorem execute_course (ld : Loader σ) (o : Options) (cmd : Path) (s : Session σ)
    (hfresh : ∀ child ∈ s.children, child.pid ≠ s.nextPid) : Course ld o cmd s where
  refused_or_passes := refused_or_passes ld o cmd s
  refused := exists_run_execute_of_refused
  untouched h := h.untouched rfl
  listed := run_execute_of_listed
  rootless := run_execute_of_rootless
  unstaged := exists_run_execute_of_unstaged
  staged h hlist hroot hstage := by
    obtain ⟨log, hrun⟩ := h.exists_run_stage hroot hstage
    exact ⟨log, h.stage hlist hrun⟩
  unforked := run_execute_of_unforked
  forked h hfork := by
    obtain ⟨hchildren, hnext, hkernel⟩ := h.frame_of_staged
    rw [← hkernel] at hfork
    rw [run_execute_of_passes h, ← hchildren, ← hnext]
    exact pids_run_depart ld o _ _ hfork
  only_staged hchildren := by
    obtain ⟨config, c, s₂, hstaged⟩ := exists_staged_of_children_ne hchildren
    obtain ⟨s₁, _, _, hpasses, hlist, hroot, hstage, -⟩ := hstaged.exists_of_staged
    exact ⟨config, _, s₁, _, _, hpasses, hlist, hroot, hstage⟩
  unwaited h hfork hoption hconfig := by
    obtain ⟨-, -, hkernel⟩ := h.frame_of_staged
    rw [← hkernel] at hfork
    rw [run_execute_of_passes h]
    exact run_depart_of_not_waiting ld _ hfork (by simp [hoption, hconfig])
  exited h hfork hwait hlife := run_execute_of_waiting hfresh h hfork hwait hlife rfl
  signaled h hfork hwait hlife hpositive hnamed :=
    run_execute_of_waiting hfresh h hfork hwait hlife (by simp [Outcome.isReportable, *])

/-- A run that is staged and starts its second child. -/
theorem execute_course_second_child :
    let tree : Node := .directory 0o755 [
      (Utf8.encode "config", .file 0o644 (Utf8.encode "\x7b\"search_paths\": [\"/lib\"]\x7d")),
      (Utf8.encode "jail", .directory 0o755 []),
      (Utf8.encode "lib", .directory 0o755 [(Utf8.encode "a.so", .file 0o644 [])])]
    let start : Session Unit := { fs := { tree }, loader := (), children := [⟨1, .asleep⟩] }
    let o : Options := { root := "/jail", wait := true, config := some (Path.ofString "/config") }
    (∀ child ∈ start.children, child.pid ≠ start.nextPid) ∧
      (∃ config c s₂, Passes Loader.willing o "/opt/hello.so" start config (.staged c) s₂) ∧
      ((execute Loader.willing o "/opt/hello.so").run start).2.children.map (·.pid) = [1, 2] := by
  intro tree start o
  have hfresh : ∀ child ∈ start.children, child.pid ≠ start.nextPid := by decide
  have hcourse := execute_course Loader.willing o "/opt/hello.so" start hfresh
  obtain ⟨config, c, s₁, root, report, hpasses, hlist, hroot, hstage⟩ :=
    hcourse.only_staged (by decide +kernel)
  obtain ⟨log, hstaged⟩ := hcourse.staged hpasses hlist hroot (Prod.ext hstage rfl)
  exact ⟨hfresh, ⟨config, _, _, hstaged⟩, (hcourse.forked hstaged rfl).1⟩

end CommandLine

end Confinement
