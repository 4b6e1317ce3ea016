import Confinement.Proofs.Jail.Confined
import Confinement.Proofs.Session.Heed

/-!
# One question after the other

A target is run by a fixed sequence of questions: those that its dependencies
lead to, one that opens the target, and one for its entry point (`turns`).  A
question that fails is the last one, however deep in the needs of the target it
is asked (`heeds_loadNeeded`).  So the run keeps to the sequence up to the first
answer that stops it, and reports that answer (`Loader.Course`,
`exists_followed_loadAndInvoke`).  What is reported depends on the question and
the failure alone (`reported`).

`loadAndInvoke_course` puts this together, for every loader.  An entry point
that is missing is reported by its name and the reason, and not by the text of
the failure (`loadAndInvoke_missing_symbol`).
-/

namespace Confinement

variable {σ : Type}

/-- What a run reports when it is stopped by the failure of a question. -/
def reported (module : String) : Call → UnitError → Failure
  | .invoke .., .missingSymbol symbol reason => .entryPoint module symbol reason
  | _, e => .target module e.message

/-- Only the failure of an entry point is reported as one, and only if it is
missing. -/
theorem eq_of_reported {module symbol reason : String} {call : Call} {stop : Stop UnitError}
    (h : .failed (.entryPoint module symbol reason) = Action.Stop.map (reported module call) stop) :
    (∃ origin name, call = .invoke origin name) ∧
      stop = .failed (.missingSymbol symbol reason) := by
  cases stop with
  | ended life => cases h
  | failed e =>
      cases call with
      | invoke origin name =>
          cases e with
          | missingSymbol =>
              cases h
              exact ⟨⟨origin, name, rfl⟩, rfl⟩
          | opening => cases h
          | inspecting => cases h
      | load => cases h
      | needed => cases h
      | isResident => cases h

theorem stop_map_reported {module : String} {call : Call} (h : call.isInvoke = false)
    (stop : Stop UnitError) :
    Action.Stop.map (reported module call) stop =
      Action.Stop.map (Action.targetFailure module) stop := by
  cases stop with
  | ended life => rfl
  | failed e =>
      cases call with
      | invoke origin symbol => cases h
      | load path binding => rfl
      | needed path => rfl
      | isResident name => rfl

theorem reported_invoke (module : String) (origin : Path) (symbol : String) :
    reported module (.invoke origin symbol) = Action.entryFailure module := by
  funext e
  cases e <;> rfl

/-- All that is to be asked for a target, if its dependencies lead to the
questions `pursued`. -/
def turns (target : Path) (entryPoint : String) (pursued : List Call) : List Call :=
  pursued ++ [.load target .local, .invoke target entryPoint]

theorem eq_of_invoke_mem_turns {target origin : Path} {entryPoint name : String}
    {pursued : List Call} (hpursued : ∀ call ∈ pursued, call.isInvoke = false)
    (h : .invoke origin name ∈ turns target entryPoint pursued) :
    origin = target ∧ name = entryPoint := by
  rcases List.mem_append.mp h with hmem | hmem
  · cases hpursued _ hmem
  · simpa using hmem

namespace Loader

/-- The run asks `calls` on its way through `turns`, and comes to this result: it
completes them, or is stopped by the last one that it asked. -/
inductive Course (ld : Loader σ) (handle : Nat) (env : Environment) (fs : FileSystem) (st : σ)
    (module : String) (turns : List Call) : List Call → Except (Stop Failure) Unit → Prop
  | completed : ld.Passes handle env fs st turns →
      Course ld handle env fs st module turns turns (.ok ())
  | stopped {calls : List Call} {last : Call} {stop : Stop UnitError} : calls <+: turns →
      ld.StopsAt handle env fs st calls last stop →
      Course ld handle env fs st module turns calls
        (.error (Action.Stop.map (reported module last) stop))

namespace Course

variable {ld : Loader σ} {handle : Nat} {env : Environment} {fs : FileSystem} {st : σ}
  {module : String} {turns calls : List Call} {r : Except (Stop Failure) Unit}

theorem isPrefix (h : Course ld handle env fs st module turns calls r) : calls <+: turns := by
  cases h with
  | completed => exact List.prefix_refl _
  | stopped hprefix => exact hprefix

theorem eq_ok_iff (h : Course ld handle env fs st module turns calls r) :
    r = .ok () ↔ calls = turns ∧ ld.Passes handle env fs st turns := by
  cases h with
  | completed hpasses => exact ⟨fun _ => ⟨rfl, hpasses⟩, fun _ => rfl⟩
  | stopped hprefix hstops =>
      constructor
      · intro heq
        cases heq
      · rintro ⟨rfl, hpasses⟩
        exact absurd hpasses hstops.not_passes

theorem eq_error_iff (h : Course ld handle env fs st module turns calls r)
    {failure : Stop Failure} : r = .error failure ↔
      ∃ last stop, ld.StopsAt handle env fs st calls last stop ∧
        failure = Action.Stop.map (reported module last) stop := by
  cases h with
  | completed hpasses =>
      constructor
      · intro heq
        cases heq
      · rintro ⟨last, stop, hstops, -⟩
        exact absurd hpasses hstops.not_passes
  | stopped hprefix hstops =>
      constructor
      · intro heq
        cases heq
        exact ⟨_, _, hstops, rfl⟩
      · rintro ⟨last, stop, hstops', rfl⟩
        -- Only one of the questions asked is the first to stop the run.
        obtain ⟨rfl, rfl⟩ := hstops.unique hstops'
        rfl

/-- The answer to the last question settles the run. -/
theorem of_invoke (module : String) (target : Path) (entryPoint : String)
    (hcalls : ld.Passes handle env fs st calls) :
    Course ld handle env fs st module (calls ++ [.invoke target entryPoint])
      (calls ++ [.invoke target entryPoint])
      ((ld.invoke ⟨target, handle⟩ entryPoint env fs
        (calls.foldl (ld.next fs) st)).1.result.mapError
          (Action.Stop.map (Action.entryFailure module))) := by
  have hstop : ld.stop? handle env fs (calls.foldl (ld.next fs) st) (.invoke target entryPoint) =
      fault? (ld.invoke ⟨target, handle⟩ entryPoint env fs
        (calls.foldl (ld.next fs) st)).1.result :=
    rfl
  cases hend : (ld.invoke ⟨target, handle⟩ entryPoint env fs
      (calls.foldl (ld.next fs) st)).1.result with
  | error stop =>
      rw [hend] at hstop
      rw [Except.mapError, ← reported_invoke module target entryPoint]
      exact .stopped (List.prefix_refl _) ⟨calls, rfl, hcalls, hstop⟩
  | ok _ =>
      rw [hend] at hstop
      exact .completed (passes_append.mpr ⟨hcalls, hstop, trivial⟩)

end Course

end Loader

namespace Action

variable {ld : Loader σ} {fs : FileSystem} {directories : List Path}
  {module entryPoint suffix : String} {target : Path}

/-! ## What an object needs -/

/-- The induction is on the depth: below a name that is followed lies a walk of
the same kind. -/
theorem heeds_loadNeeded {handle : Nat} {env : Environment} (depth : Nat) (path : Path)
    (visit : Visit) : Heeds ld handle env fs (loadNeeded ld directories depth path visit) := by
  induction depth generalizing path visit with
  | zero => exact heeds_pure
  | succ depth ih =>
      rw [loadNeeded_succ]
      refine heeds_needed.bind fun names => heeds_foldlM (fun visit name => ?_) names visit
      rw [pursue]
      -- What was visited before is not pursued again, and neither is what the process has mapped.
      split
      · exact heeds_pure
      · refine heeds_isResident.bind fun mapped => ?_
        cases mapped with
        | true => exact heeds_pure
        | false =>
            apply Heeds.files_bind
            cases findLibrary fs name directories with
            | none => exact heeds_note.bind fun _ => heeds_pure
            | some found =>
                refine (ih found _).bind fun visit' => heeds_note.bind fun _ => ?_
                exact heeds_load.bind fun _ => heeds_pure

theorem heeds_loadDependencies (ld : Loader σ) (handle : Nat) (env : Environment) (path : Path)
    (directories : List Path) :
    Heeds ld handle env fs (loadDependencies ld path directories) := by
  apply Heeds.closingOnFailure
  apply Heeds.files_bind
  exact (heeds_loadNeeded _ path {}).bind fun _ => heeds_pure

/-! ## Step by step -/

theorem run_openTarget_of_none {s : Session σ}
    (hresolve : resolveModule s.fs module directories (some suffix) = none) :
    (openTarget ld module directories suffix).run s =
      (.error (.failed (.target module ("No module named '" ++ module ++ "'"))), s) := by
  rw [openTarget, run_bind_of_ok (run_files s), hresolve]
  rfl

theorem run_openTarget_of_error (module : String) {s s₁ : Session σ} {stop : Stop UnitError}
    (hresolve : resolveModule s.fs module directories (some suffix) = some target)
    (hrun : (loadDependencies ld target directories).run s = (.error stop, s₁)) :
    (openTarget ld module directories suffix).run s =
      (.error (Stop.map (targetFailure module) stop), s₁) := by
  rw [openTarget, run_bind_of_ok (run_files s), hresolve]
  apply run_bind_of_error
  rw [run_wrap, hrun]
  rfl

theorem run_openTarget_of_ok (module : String) {s s₁ s₂ : Session σ} {units : List CodeUnit}
    {r : Except (Stop UnitError) CodeUnit}
    (hresolve : resolveModule s.fs module directories (some suffix) = some target)
    (hrun : (loadDependencies ld target directories).run s = (.ok units, s₁))
    (hload : (load ld target .local).run s₁ = (r, s₂)) :
    (openTarget ld module directories suffix).run s =
      (r.mapError (Stop.map (targetFailure module)), s₂) := by
  rw [openTarget, run_bind_of_ok (run_files s), hresolve]
  dsimp only
  rw [run_bind_of_ok (run_wrap_eq_ok.mpr hrun), run_wrap, hload]

/-- A run that began in `s` asked `calls` on its way through the turns of a
target, whose entry point was sought in the object that was opened last. -/
structure Followed (ld : Loader σ) (module entryPoint : String) (target : Path) (s : Session σ)
    (pursued : List Call) (handle : Nat) (calls : List Call)
    (outcome : Except (Stop Failure) Unit × Session σ) : Prop where
  journal_eq : outcome.2.journal = s.journal ++ calls.map s.entry
  opened : .invoke target entryPoint ∈ calls →
    (ld.load target .local s.fs (pursued.foldl (ld.next s.fs) s.loader)).1 = .ok handle
  course : ld.Course handle s.env s.fs s.loader module (turns target entryPoint pursued) calls
    outcome.1

/-- A target whose dependencies are there is opened, and then its entry point is
run. -/
theorem exists_followed_of_ok (entryPoint : String) {s s₁ : Session σ} {units : List CodeUnit}
    {pursued : List Call}
    (hresolve : resolveModule s.fs module directories (some suffix) = some target)
    (hrun : (loadDependencies ld target directories).run s = (.ok units, s₁))
    (hasks : Asks pursued s s₁) (hquiet : ∀ call ∈ pursued, call.isInvoke = false)
    (hloader : s₁.loader = pursued.foldl (ld.next s.fs) s.loader)
    (hpasses : ∀ handle, ld.Passes handle s.env s.fs s.loader pursued) :
    ∃ handle calls, Followed ld module entryPoint target s pursued handle calls
      ((loadAndInvoke ld module entryPoint directories suffix).run s) := by
  obtain ⟨s₂, hload, hasked, hmoved⟩ := exists_run_load ld target .local s₁
  have hopen := run_openTarget_of_ok module hresolve hrun hload
  have hopening := hasks.trans hasked
  rw [hasks.fs_eq, hloader] at hopen hmoved
  -- Opening the target is the next question. If it is refused, it is also the last one.
  cases hanswer : (ld.load target .local s.fs (pursued.foldl (ld.next s.fs) s.loader)).1 with
  | error e =>
      rw [hanswer] at hopen
      obtain ⟨hresult, hjournal⟩ := run_loadAndInvoke_of_error entryPoint hopen
      refine ⟨0, pursued ++ [.load target .local], hjournal.trans hopening.journal_eq, ?_, ?_⟩
      · intro hmem
        rcases List.mem_append.mp hmem with hpursued | hturn
        · cases hquiet _ hpursued
        · cases List.mem_singleton.mp hturn
      · have hstops : ld.StopsAt 0 s.env s.fs s.loader (pursued ++ [.load target .local])
            (.load target .local) (.failed e) :=
          ⟨pursued, rfl, hpasses 0, by simp [Loader.stop?, hanswer, fault?]⟩
        rw [hresult]
        exact .stopped ⟨[.invoke target entryPoint], by simp [turns]⟩ hstops
  | ok handle =>
      rw [hanswer] at hopen
      obtain ⟨hresult, hjournal⟩ := run_loadAndInvoke_of_ok entryPoint hopen
      rw [hopening.journal_eq, hopening.entry_eq] at hjournal
      rw [hopening.env_eq, hopening.fs_eq, hmoved] at hresult
      have hloaded : ld.Passes handle s.env s.fs s.loader (pursued ++ [.load target .local]) :=
        Loader.passes_append.mpr ⟨hpasses handle, by simp [Loader.stop?, hanswer, fault?], trivial⟩
      have hsplit : turns target entryPoint pursued =
          (pursued ++ [Call.load target .local]) ++ [.invoke target entryPoint] := by
        simp [turns]
      have hend := Loader.Course.of_invoke module target entryPoint hloaded
      rw [List.foldl_append] at hend
      refine ⟨handle, turns target entryPoint pursued, ?_, fun _ => hanswer, ?_⟩
      · simp [hjournal, turns]
      · rw [hresult, hsplit]
        exact hend

/-- The dependencies come first; if nothing stops them the target follows, and
then its entry point. -/
theorem exists_followed_loadAndInvoke (ld : Loader σ) (module entryPoint : String) (s : Session σ)
    (hresolve : resolveModule s.fs module directories (some suffix) = some target) :
    ∃ pursued handle calls, Asks pursued s ((loadDependencies ld target directories).run s).2 ∧
      (∀ call ∈ pursued, call.isInvoke = false) ∧
      Followed ld module entryPoint target s pursued handle calls
        ((loadAndInvoke ld module entryPoint directories suffix).run s) := by
  have htraces : Traces s.fs (loadDependencies ld target directories) _ :=
    traces_loadDependencies target
  obtain ⟨pursued, hasks, honly⟩ := htraces s rfl
  have hquiet : ∀ call ∈ pursued, call.isInvoke = false :=
    fun call hcall => (honly.forall_mem call hcall).isInvoke
  -- The trace that the walk leaves and the one that settles its result are the same, since a
  -- journal has only one way to grow.
  have hsettled : ∀ handle, Settled ld handle s.env s.fs s.loader pursued
      ((loadDependencies ld target directories).run s) := by
    intro handle
    obtain ⟨calls, hasks', hsettled⟩ :=
      heeds_loadDependencies ld handle s.env target directories s rfl
    obtain rfl := hasks.unique hasks'
    exact hsettled
  cases hrun : (loadDependencies ld target directories).run s with
  | mk result s₁ =>
      rw [hrun] at hasks hsettled
      cases result with
      | error stop =>
          obtain ⟨last, hstops⟩ := hsettled 0
          obtain ⟨hresult, hjournal⟩ :=
            run_loadAndInvoke_of_error entryPoint (run_openTarget_of_error module hresolve hrun)
          refine ⟨pursued, 0, pursued, hasks, hquiet, hjournal.trans hasks.journal_eq, ?_, ?_⟩
          · intro hmem
            cases hquiet _ hmem
          · rw [hresult, ← stop_map_reported (hquiet last hstops.mem)]
            exact .stopped (List.prefix_append ..) hstops
      | ok units =>
          obtain ⟨handle, calls, hfollowed⟩ := exists_followed_of_ok entryPoint hresolve hrun
            hasks hquiet (hsettled 0).2 fun handle => (hsettled handle).1
          exact ⟨pursued, handle, calls, hasks, hquiet, hfollowed⟩

/-! ## The whole run -/

/-- A module that is found nowhere leads to no question.  For one that is found
the questions are those of its dependencies, one that opens it for itself, and
one for its entry point, as far as none of them stops the run.  The run succeeds
if and only if all were asked and none stopped it; otherwise it is stopped by the
last one, and reports its failure.  Only a missing entry point is reported as
such. -/
theorem loadAndInvoke_course (ld : Loader σ) (module entryPoint : String)
    (directories : List Path) (suffix : String) (s : Session σ) :
    let run := (loadAndInvoke ld module entryPoint directories suffix).run s
    match resolveModule s.fs module directories (some suffix) with
    | none => run.2.journal = s.journal ∧
        run.1 = .error (.failed (.target module ("No module named '" ++ module ++ "'")))
    | some target => ∃ pursued handle calls,
        Asks pursued s ((loadDependencies ld target directories).run s).2 ∧
        (∀ call ∈ pursued, call.isInvoke = false) ∧
        run.2.journal = s.journal ++ calls.map s.entry ∧
        calls <+: turns target entryPoint pursued ∧
        (.invoke target entryPoint ∈ calls →
          (ld.load target .local s.fs (pursued.foldl (ld.next s.fs) s.loader)).1 = .ok handle) ∧
        (run.1 = .ok () ↔ calls = turns target entryPoint pursued ∧
          ld.Passes handle s.env s.fs s.loader (turns target entryPoint pursued)) ∧
        (∀ failure, run.1 = .error failure ↔
          ∃ last stop, ld.StopsAt handle s.env s.fs s.loader calls last stop ∧
            failure = Stop.map (reported module last) stop) ∧
        ∀ symbol reason, run.1 = .error (.failed (.entryPoint module symbol reason)) ↔
          ld.StopsAt handle s.env s.fs s.loader calls (.invoke target entryPoint)
            (.failed (.missingSymbol symbol reason)) := by
  intro run
  cases hresolve : resolveModule s.fs module directories (some suffix) with
  | none =>
      obtain ⟨hresult, hjournal⟩ :=
        run_loadAndInvoke_of_error entryPoint (run_openTarget_of_none hresolve)
      exact ⟨hjournal, hresult⟩
  | some target =>
      obtain ⟨pursued, handle, calls, hasks, hquiet, hjournal, hopened, hcourse⟩ :=
        exists_followed_loadAndInvoke ld module entryPoint s hresolve
      refine ⟨pursued, handle, calls, hasks, hquiet, hjournal, hcourse.isPrefix, hopened,
        hcourse.eq_ok_iff, fun failure => hcourse.eq_error_iff, fun symbol reason => ?_⟩
      rw [hcourse.eq_error_iff]
      constructor
      · rintro ⟨last, stop, hstops, hreported⟩
        -- Only a question for an entry point is reported so, and among these questions that is the
        -- last.
        obtain ⟨⟨origin, name, rfl⟩, rfl⟩ := eq_of_reported hreported
        obtain ⟨rfl, rfl⟩ := eq_of_invoke_mem_turns hquiet (hcourse.isPrefix.subset hstops.mem)
        exact hstops
      · intro hstops
        exact ⟨_, _, hstops, rfl⟩

end Action

/-- A loader without a state that opens every object, and finds an entry point in
none. -/
def Loader.symbolless (reason : String) : Loader Unit where
  load _ _ _ s := (.ok 0, s)
  needed _ _ s := (.ok [], s)
  isResident _ _ s := (false, s)
  invoke _ symbol _ fs s := (.back (.error (.missingSymbol symbol reason)), fs, s)
  close _ s := s

deriving instance DecidableEq for Stop

namespace Action

/-- The reason reported for a missing entry point is not the text of the failure:
that names the symbol once more. -/
theorem loadAndInvoke_missing_symbol :
    let ld := Loader.symbolless "undefined symbol"
    let run := (loadAndInvoke ld "hello" "main" ["/u"] ".so").run helloHost
    let e := UnitError.missingSymbol "main" "undefined symbol"
    run.2.journal.map (·.call) =
        [.needed "/u/hello.so", .load "/u/hello.so" .local, .invoke "/u/hello.so" "main"] ∧
      ld.stop? 0 [] helloHost.fs () (.invoke "/u/hello.so" "main") = some (.failed e) ∧
      run.1 = .error (.failed (.entryPoint "hello" "main" "undefined symbol")) ∧
      "undefined symbol" ≠ e.message := by
  intro ld run e
  refine ⟨?_, rfl, ?_, ?_⟩ <;> decide +kernel

end Action

end Confinement
