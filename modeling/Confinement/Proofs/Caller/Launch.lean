import Confinement.Caller
import Confinement.Proofs.Session.Run

/-!
# Staged, launched and waited for

Staging changes the files, and that only (`exists_run_stage`).  A launch adds
one child (`exists_run_launch`), whose end the caller learns of if it waits for
it (`run_wait_of_ended`).
-/

namespace Confinement

variable {σ : Type}

namespace Action

variable {s : Session σ}

/-! ## Staging -/

theorem run_stage_of_rootless {c : Discovered} {p : RootProblem}
    (h : validateRoot s.fs c.invocation.root = .error p) :
    (stage c).run s = (.error (.failed (.configuration p.message)), s) := by
  rw [stage, run_bind_of_ok (run_files s), h]
  rfl

theorem exists_run_stage {c : Discovered} {root : Path} {result : Except Failure StagingReport}
    {scene : Stage.Scene} (hroot : validateRoot s.fs c.invocation.root = .ok root)
    (h : Stage.run ⟨root, c.config.stagingPrefix⟩ s.fs c.searchPaths = (result, scene)) :
    ∃ log, (stage c).run s =
      ((result.map fun report => { c with jailRoot := root, report }).mapError .failed,
        { s with fs := scene.fs, log }) := by
  rw [stage, run_bind_of_ok (run_files s),
    run_bind_of_ok (run_lift_eq_ok.mpr ⟨mapError_eq_ok.mpr hroot, rfl⟩),
    run_bind_of_ok (run_get s), h]
  cases result with
  | error e => exact ⟨_, rfl⟩
  | ok report => exact ⟨_, rfl⟩

/-- What is known of a call that is staged. -/
theorem run_stage_eq_ok {c : Discovered} {c' : Staged} {s' : Session σ}
    (h : (stage c).run s = (.ok c', s')) :
    validateRoot s.fs c.invocation.root = .ok c'.jailRoot ∧
      (Stage.run ⟨c'.jailRoot, c.config.stagingPrefix⟩ s.fs c.searchPaths).1 = .ok c'.report ∧
      c'.toDiscovered = c ∧ ∃ fs log, s' = { s with fs, log } := by
  cases hroot : validateRoot s.fs c.invocation.root with
  | error p =>
      rw [run_stage_of_rootless hroot] at h
      cases h
  | ok root =>
      cases hstage : Stage.run ⟨root, c.config.stagingPrefix⟩ s.fs c.searchPaths with
      | mk result scene =>
          obtain ⟨log, hrun⟩ := exists_run_stage hroot hstage
          rw [hrun] at h
          cases result with
          | error e => cases h
          | ok report =>
              cases h
              exact ⟨rfl, by rw [hstage], rfl, _, _, rfl⟩

/-! ## Launching -/

theorem run_launch_of_refused (ld : Loader σ) {c : Staged} {e : Errno}
    (h : s.kernel .fork = some e) :
    (launch ld c).run s = (.error (.failed (.child ("fork failed: " ++ e.symbol))), s) := by
  rw [launch, run_bind_of_ok (run_get s)]
  simp only [h]
  rfl

theorem exists_run_launch (ld : Loader σ) (c : Staged) (h : s.kernel .fork = none) :
    ∃ s', (launch ld c).run s = (.ok ⟨s.nextPid⟩, s') ∧ s'.nextPid = s.nextPid + 1 ∧
      s'.children = s.children ++ [⟨s.nextPid, (childLife ld (Staged.plan c s.fs) s).1⟩] := by
  rw [launch, run_bind_of_ok (run_get s)]
  simp only [h]
  exact ⟨_, rfl, rfl, rfl⟩

end Action

/-! ## Waiting -/

namespace ChildHandle

variable {h : ChildHandle} {s : Session σ}

theorem pids_setLife (h : ChildHandle) (life : Life) (s : Session σ) :
    (h.setLife life s).children.map (·.pid) = s.children.map (·.pid) := by
  rw [setLife, List.map_map]
  apply List.map_congr_left
  intro child _
  simp only [Function.comp_apply]
  split <;> rfl

/-- A child that has ended is taken notice of, and its end is told if it can
be. -/
theorem run_wait_of_ended {outcome : Outcome} (hlife : h.life s = .ended outcome) :
    h.wait.run s = (if outcome.isReportable then .ok outcome
      else .error (.failed (h.waitFailure .invalid)), h.setLife .reaped s) := by
  have hseen : (Life.ended outcome).status.outcome? = some outcome := by
    cases outcome <;> rfl
  -- The child has ended, so the first look at it is the only one.
  have htry : h.tryWait.run s = (if outcome.isReportable then .ok (some outcome)
      else .error (.failed (h.waitFailure .invalid)), h.setLife .reaped s) := by
    rw [tryWait, run_bind_of_ok (run_get s)]
    simp only [hlife, reduceCtorEq, if_false, hseen]
    have hmodify : (modify (h.setLife .reaped) : Action σ Failure Unit).run s =
        (.ok (), h.setLife .reaped s) := rfl
    rw [run_bind_of_ok hmodify]
    cases outcome.isReportable <;> rfl
  rw [wait]
  cases hreportable : outcome.isReportable with
  | true =>
      rw [hreportable] at htry
      rw [run_bind_of_ok htry]
      rfl
  | false =>
      rw [hreportable] at htry
      rw [run_bind_of_error htry]
      rfl

/-- Waiting for any other changes nothing. -/
theorem exists_run_wait_of_not_ended (hlife : ∀ outcome, h.life s ≠ .ended outcome) :
    ∃ stop, h.wait.run s = (.error stop, s) := by
  have htry : (∃ e, h.tryWait.run s = (.error e, s)) ∨ h.tryWait.run s = (.ok none, s) := by
    rw [tryWait, run_bind_of_ok (run_get s)]
    cases hstate : h.life s with
    | ended outcome => exact absurd hstate (hlife outcome)
    | stopped => exact .inr rfl
    | asleep => exact .inr rfl
    | reaped => exact .inl ⟨_, rfl⟩
  rw [wait]
  rcases htry with ⟨e, htry⟩ | htry
  · rw [run_bind_of_error htry]
    exact ⟨e, rfl⟩
  · rw [run_bind_of_ok htry]
    exact ⟨_, rfl⟩

theorem pids_run_wait (h : ChildHandle) (s : Session σ) :
    (h.wait.run s).2.children.map (·.pid) = s.children.map (·.pid) ∧
      (h.wait.run s).2.nextPid = s.nextPid := by
  by_cases hended : ∃ outcome, h.life s = .ended outcome
  · obtain ⟨outcome, hlife⟩ := hended
    rw [run_wait_of_ended hlife]
    exact ⟨pids_setLife h .reaped s, rfl⟩
  · rw [not_exists] at hended
    obtain ⟨stop, hrun⟩ := exists_run_wait_of_not_ended hended
    rw [hrun]
    exact ⟨rfl, rfl⟩

theorem life_of_append {pid : Nat} {life : Life} {children : List Child}
    (hfresh : ∀ child ∈ children, child.pid ≠ pid)
    (h : s.children = children ++ [⟨pid, life⟩]) : (ChildHandle.mk pid).life s = life := by
  have hnone : children.find? (·.pid = pid) = none := by
    simpa using hfresh
  rw [ChildHandle.life, h, List.find?_append, hnone]
  simp

end ChildHandle

end Confinement
