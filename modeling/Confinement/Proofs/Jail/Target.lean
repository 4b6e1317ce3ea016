import Confinement.Jail
import Confinement.Proofs.Dependencies.Closure

/-!
# The target in the jail

A target is opened after all that it needs, for none but itself, and its entry
point is asked for last (`traces_openTarget`, `run_loadAndInvoke_cases`).

What it needs is opened for all to use, and the target itself is not counted
among the names looked at.  So it stays private as long as its needs do not
lead back to its own file (`Loader.Circular`); if they do, it is opened for all
to use before it is opened for itself (`loadAndInvoke_private_iff`).
-/

namespace Confinement

open Relation

/-- The needs of the object at `target` may lead back to its own file. -/
def Loader.Circular {σ : Type} (ld : Loader σ) (fs : FileSystem) (directories : List Path)
    (target : Path) : Prop :=
  ∃ q : Path, q.Same target ∧ TransGen (ld.Link fs directories) target q

namespace Call

/-- The question opens the file at `target`. -/
def opens (target : Path) : Call → Bool
  | .load q _ => q.Same target
  | _ => false

/-- The question opens an object for none but itself. -/
def opensForItself : Call → Bool
  | .load _ .local => true
  | _ => false

end Call

namespace Action

variable {σ : Type} {ld : Loader σ} {fs : FileSystem} {directories : List Path}
  {module entryPoint suffix : String} {target : Path}

/-! ## Up to the entry point -/

/-- The target found and opened after all it needs. -/
def openTarget (ld : Loader σ) (module : String) (directories : List Path) (suffix : String) :
    Action σ Failure CodeUnit := do
  match resolveModule (← files) module directories (some suffix) with
  | none => fail (.target module ("No module named '" ++ module ++ "'"))
  | some path =>
    let _ ← wrap (targetFailure module) (loadDependencies ld path directories)
    wrap (targetFailure module) (load ld path .local)

/-- The entry point of an open target run. -/
def runEntry (ld : Loader σ) (module entryPoint : String) (unit : CodeUnit) :
    Action σ Failure Unit := do
  info ("Calling " ++ module ++ "." ++ entryPoint ++ " from " ++ unit.origin.display)
  wrap (entryFailure module) (invoke ld unit entryPoint)

/-- The target is opened and run, and then closed and after it what it needs,
which makes a difference to none but the loader. -/
theorem exists_run_loadAndInvoke (ld : Loader σ) (module entryPoint : String)
    (directories : List Path) (suffix : String) (s : Session σ) :
    let r := (openTarget ld module directories suffix >>= runEntry ld module entryPoint).run s
    ∃ loader opened, (loadAndInvoke ld module entryPoint directories suffix).run s =
      (r.1, { r.2 with loader, opened }) := by
  intro r
  unfold loadAndInvoke closingAll
  apply exists_run_closing_of_eq
  simp only [r, openTarget, bind_assoc, run_bind_of_ok (run_files s)]
  cases resolveModule s.fs module directories (some suffix) with
  | none => exact ⟨_, _, rfl⟩
  | some path =>
      simp only [bind_assoc]
      -- Only where the needs are open is there a second closing, inside of the first.
      cases hneeds : (wrap (targetFailure module) (loadDependencies ld path directories)).run s with
      | mk result s₁ =>
          cases result with
          | error stop =>
              rw [run_bind_of_error hneeds, run_bind_of_error hneeds]
              exact ⟨_, _, rfl⟩
          | ok units =>
              rw [run_bind_of_ok hneeds, run_bind_of_ok hneeds]
              exact exists_run_closing ld _ _ s₁

/-- What is asked before a target is open: what its needs lead to, and then,
unless that failed, to open the target for none but itself. -/
def Opened (ld : Loader σ) (fs : FileSystem) (directories : List Path) (module : String)
    (target : Path) : Except (Stop Failure) CodeUnit → List Call → Prop
  | .ok unit, calls => unit.origin = target ∧ ∃ pursued, calls = pursued ++ [.load target .local] ∧
      ∀ call ∈ pursued, ld.Pursued fs directories target call
  | .error stop, calls => (∃ reason, stop = .failed (.target module reason)) ∧
      ∃ pursued opened, calls = pursued ++ opened ∧ opened <+: [.load target .local] ∧
        ∀ call ∈ pursued, ld.Pursued fs directories target call

/-- What holds of all that is pursued and of the target's own turn holds of all
questions. -/
theorem Opened.forall_mem {r : Except (Stop Failure) CodeUnit} {calls : List Call}
    {P : Call → Prop} (h : Opened ld fs directories module target r calls)
    (hpursued : ∀ call, ld.Pursued fs directories target call → P call)
    (hturn : P (.load target .local)) : ∀ call ∈ calls, P call := by
  obtain ⟨pursued, opened, rfl, hopened, hall⟩ : ∃ pursued opened, calls = pursued ++ opened ∧
      opened <+: [.load target .local] ∧
        ∀ call ∈ pursued, ld.Pursued fs directories target call := by
    cases r with
    | ok unit =>
        obtain ⟨-, pursued, hcalls, hall⟩ := h
        exact ⟨pursued, _, hcalls, List.prefix_refl _, hall⟩
    | error stop => exact h.2
  intro call hcall
  rcases List.mem_append.mp hcall with hmem | hmem
  · exact hpursued call (hall call hmem)
  · obtain rfl := List.mem_singleton.mp (hopened.subset hmem)
    exact hturn

theorem traces_openTarget
    (hresolve : resolveModule fs module directories (some suffix) = some target) :
    Traces fs (openTarget ld module directories suffix)
      (Opened ld fs directories module target) := by
  rw [openTarget]
  apply Traces.quietly traces_files
  simp only [hresolve]
  apply (traces_loadDependencies target).wrap.bind
  · rintro units pursued ⟨r, hr, -⟩
    apply traces_load.wrap.mono
    rintro _ _ ⟨_, ⟨⟨st, rfl⟩, rfl⟩, rfl⟩
    cases (ld.load target .local fs st).1 with
    | error e => exact ⟨⟨_, rfl⟩, pursued, _, rfl, List.prefix_refl _, hr.forall_mem⟩
    | ok handle => exact ⟨rfl, pursued, rfl, hr.forall_mem⟩
  · rintro stop pursued ⟨r, hr, heq⟩
    cases r with
    | ok units => cases heq
    | error e =>
        -- The loader may refuse what the target needs, but it never ends the process.
        cases e with
        | ended life => exact hr.elim
        | failed e =>
            cases heq
            exact ⟨⟨_, rfl⟩, pursued, [], (List.append_nil _).symm, List.nil_prefix, hr⟩

theorem traces_openTarget_of_none
    (hresolve : resolveModule fs module directories (some suffix) = none) :
    Traces fs (openTarget ld module directories suffix) fun r calls =>
      (∃ reason, r = .error (.failed (.target module reason))) ∧ calls = [] := by
  rw [openTarget]
  apply Traces.quietly traces_files
  simp only [hresolve]
  exact traces_fail ⟨⟨_, rfl⟩, rfl⟩

/-- With a steady loader all that a chain of links leads to is opened before
the target. -/
theorem traces_openTarget_of_steady (hsteady : ld.Steady fs)
    (hresolve : resolveModule fs module directories (some suffix) = some target) :
    Traces fs (openTarget ld module directories suffix) fun _ calls =>
      ∀ q, TransGen (ld.Link fs directories) target q → .load q .global ∈ calls := by
  rw [openTarget]
  apply Traces.quietly traces_files
  simp only [hresolve]
  apply (traces_loadDependencies_of_steady hsteady target).wrap.bind
  · rintro units pursued ⟨_, ⟨_, rfl, hall⟩, -⟩
    apply traces_load.wrap.mono
    rintro _ calls - q hchain
    exact List.mem_append_left calls (hall q hchain)
  · rintro stop calls ⟨_, ⟨_, rfl, -⟩, heq⟩
    cases heq

/-! ## The entry point -/

theorem exists_run_runEntry (ld : Loader σ) (module entryPoint : String) (unit : CodeUnit)
    (s : Session σ) : ∃ (fs : FileSystem) (loader : σ) (log : Log),
      (runEntry ld module entryPoint unit).run s =
        ((ld.invoke unit entryPoint s.env s.fs s.loader).1.result.mapError
            (Stop.map (entryFailure module)),
          { s with journal := s.journal ++ [s.entry (.invoke unit.origin entryPoint)],
                   fs, loader, log }) := by
  obtain ⟨log, hinvoke⟩ := exists_run_invoke ld unit entryPoint
    { s with log := s.log ++
        [⟨.info, "Calling " ++ module ++ "." ++ entryPoint ++ " from " ++ unit.origin.display⟩] }
  have hinfo : (info ("Calling " ++ module ++ "." ++ entryPoint ++ " from " ++
      unit.origin.display) : Action σ Failure Unit).run s = (.ok (), { s with log := s.log ++
        [⟨.info,
          "Calling " ++ module ++ "." ++ entryPoint ++ " from " ++ unit.origin.display⟩] }) :=
    rfl
  rw [runEntry, run_bind_of_ok hinfo, run_wrap, hinvoke]
  exact ⟨_, _, log, rfl⟩

theorem run_loadAndInvoke_of_error (entryPoint : String) {s s₁ : Session σ} {stop : Stop Failure}
    (hopen : (openTarget ld module directories suffix).run s = (.error stop, s₁)) :
    ((loadAndInvoke ld module entryPoint directories suffix).run s).1 = .error stop ∧
      ((loadAndInvoke ld module entryPoint directories suffix).run s).2.journal = s₁.journal := by
  obtain ⟨_, _, hrun⟩ := exists_run_loadAndInvoke ld module entryPoint directories suffix s
  rw [hrun, run_bind_of_error hopen]
  exact ⟨rfl, rfl⟩

theorem run_loadAndInvoke_of_ok (entryPoint : String) {s s₁ : Session σ} {unit : CodeUnit}
    (hopen : (openTarget ld module directories suffix).run s = (.ok unit, s₁)) :
    ((loadAndInvoke ld module entryPoint directories suffix).run s).1 =
        (ld.invoke unit entryPoint s₁.env s₁.fs s₁.loader).1.result.mapError
          (Stop.map (entryFailure module)) ∧
      ((loadAndInvoke ld module entryPoint directories suffix).run s).2.journal =
        s₁.journal ++ [s₁.entry (.invoke unit.origin entryPoint)] := by
  obtain ⟨_, _, hrun⟩ := exists_run_loadAndInvoke ld module entryPoint directories suffix s
  obtain ⟨fs, loader, log, hentry⟩ := exists_run_runEntry ld module entryPoint unit s₁
  rw [hrun, run_bind_of_ok hopen, hentry]
  exact ⟨rfl, rfl⟩

theorem run_loadAndInvoke_cases (ld : Loader σ) (module entryPoint : String)
    (directories : List Path) (suffix : String) (s : Session σ)
    {Q : Except (Stop Failure) CodeUnit → List Call → Prop}
    (h : Traces s.fs (openTarget ld module directories suffix) Q) :
    (∃ stop calls, Q (.error stop) calls ∧
      ((loadAndInvoke ld module entryPoint directories suffix).run s).1 = .error stop ∧
      ((loadAndInvoke ld module entryPoint directories suffix).run s).2.journal =
        s.journal ++ calls.map s.entry) ∨
    (∃ unit calls, ∃ r : Except (Stop UnitError) Unit, Q (.ok unit) calls ∧
      ((loadAndInvoke ld module entryPoint directories suffix).run s).1 =
        r.mapError (Stop.map (entryFailure module)) ∧
      ((loadAndInvoke ld module entryPoint directories suffix).run s).2.journal =
        s.journal ++ (calls ++ [Call.invoke unit.origin entryPoint]).map s.entry) := by
  obtain ⟨calls, hasks, hQ⟩ := h s rfl
  cases hopen : (openTarget ld module directories suffix).run s with
  | mk result s₁ =>
      rw [hopen] at hasks hQ
      cases result with
      | error stop =>
          obtain ⟨hresult, hjournal⟩ := run_loadAndInvoke_of_error entryPoint hopen
          exact .inl ⟨stop, calls, hQ, hresult, hjournal.trans hasks.journal_eq⟩
      | ok unit =>
          obtain ⟨hresult, hjournal⟩ := run_loadAndInvoke_of_ok entryPoint hopen
          refine .inr ⟨unit, calls, _, hQ, hresult, hjournal.trans ?_⟩
          rw [hasks.entry_eq, hasks.journal_eq, List.map_append, List.append_assoc]
          rfl

/-! ## Privacy -/

/-- The target is opened at most once, and then for none but itself. -/
structure Private (target : Path) (calls : List Call) : Prop where
  binding : ∀ q b, .load q b ∈ calls → q.Same target → b = .local
  once : calls.countP (Call.opens target) ≤ 1

/-- The questions asked for a target: what its needs lead to, then the target
itself for none but itself, then its entry point, as far as the run gets. -/
structure AskedFor (ld : Loader σ) (fs : FileSystem) (directories : List Path) (target : Path)
    (entryPoint : String) (pursued rest : List Call) : Prop where
  pursued : ∀ call ∈ pursued, ld.Pursued fs directories target call
  rest : rest <+: [.load target .local, .invoke target entryPoint]

namespace AskedFor

variable {pursued rest : List Call}

theorem not_opensForItself (h : AskedFor ld fs directories target entryPoint pursued rest) :
    ∀ call ∈ pursued, call.opensForItself = false := by
  intro call hcall
  cases h.pursued call hcall <;> rfl

theorem filter_opensForItself (h : AskedFor ld fs directories target entryPoint pursued rest) :
    (pursued ++ rest).filter Call.opensForItself <+: [.load target .local] := by
  have hpursued : pursued.filter Call.opensForItself = [] := by
    rw [List.filter_eq_nil_iff]
    intro call hcall
    simp [h.not_opensForItself call hcall]
  rw [List.filter_append, hpursued, List.nil_append]
  exact h.rest.filter Call.opensForItself

/-- Unless the needs of the target lead back to it, it is opened in its own
turn only. -/
theorem isPrivate (h : AskedFor ld fs directories target entryPoint pursued rest)
    (hcircular : ¬ ld.Circular fs directories target) : Private target (pursued ++ rest) := by
  -- If what is pursued were to open the target, the chain to it would be a way around.
  have hother : ∀ q b, .load q b ∈ pursued → ¬ q.Same target := by
    intro q b hmem hsame
    cases h.pursued _ hmem with
    | load hchain => exact hcircular ⟨q, hsame, hchain⟩
  constructor
  · intro q b hmem hsame
    rcases List.mem_append.mp hmem with hmem | hmem
    · exact absurd hsame (hother q b hmem)
    · have hturn := h.rest.subset hmem
      simp only [List.mem_cons, Call.load.injEq, List.not_mem_nil, or_false, reduceCtorEq] at hturn
      exact hturn.2
  · have hnone : pursued.countP (Call.opens target) = 0 := by
      rw [List.countP_eq_zero]
      intro call hcall hopens
      cases call with
      | load q b => exact hother q b hcall (by simpa [Call.opens] using hopens)
      | needed q => cases hopens
      | isResident name => cases hopens
      | invoke q symbol => cases hopens
    rw [List.countP_append, hnone, Nat.zero_add]
    calc rest.countP (Call.opens target)
        ≤ [Call.load target .local, .invoke target entryPoint].countP (Call.opens target) :=
          h.rest.sublist.countP_le
      _ = 1 := by simp [Call.opens, Path.Same]

end AskedFor

/-- The questions by which a target is found, opened and run. -/
theorem exists_askedFor (ld : Loader σ) (entryPoint : String) (s : Session σ)
    (hresolve : resolveModule s.fs module directories (some suffix) = some target) :
    ∃ pursued rest, AskedFor ld s.fs directories target entryPoint pursued rest ∧
      ((loadAndInvoke ld module entryPoint directories suffix).run s).2.journal =
        s.journal ++ (pursued ++ rest).map s.entry ∧
      (ld.Steady s.fs → ∀ q, TransGen (ld.Link s.fs directories) target q →
        .load q .global ∈ pursued ++ rest) := by
  have htraces : Traces s.fs (openTarget ld module directories suffix) fun r calls =>
      Opened ld s.fs directories module target r calls ∧
        (ld.Steady s.fs → ∀ q, TransGen (ld.Link s.fs directories) target q →
          .load q .global ∈ calls) := by
    -- Only for a steady loader is it known what is opened; the rest holds for any.
    by_cases hsteady : ld.Steady s.fs
    · apply ((traces_openTarget hresolve).and (traces_openTarget_of_steady hsteady hresolve)).mono
      rintro r calls ⟨hopened, hall⟩
      exact ⟨hopened, fun _ => hall⟩
    · exact (traces_openTarget hresolve).mono fun r calls hopened =>
        ⟨hopened, fun h => absurd h hsteady⟩
  rcases run_loadAndInvoke_cases ld module entryPoint directories suffix s htraces with
    ⟨stop, calls, ⟨⟨-, pursued, opened, rfl, hopened, hpursued⟩, hall⟩, -, hjournal⟩ |
    ⟨unit, calls, r, ⟨⟨rfl, pursued, rfl, hpursued⟩, hall⟩, -, hjournal⟩
  · have hturns : opened <+: [.load target .local, .invoke target entryPoint] :=
      hopened.trans (List.prefix_append [_] [_])
    exact ⟨pursued, opened, ⟨hpursued, hturns⟩, hjournal, hall⟩
  · rw [List.append_assoc] at hjournal
    refine ⟨pursued, _, ⟨hpursued, List.prefix_refl _⟩, hjournal, fun hsteady q hchain => ?_⟩
    have hturns : pursued ++ [.load unit.origin .local] <+:
        pursued ++ [.load unit.origin .local, .invoke unit.origin entryPoint] :=
      (List.prefix_append_right_inj pursued).mpr (List.prefix_append [_] [_])
    exact hturns.subset (hall hsteady q hchain)

/-- A target whose needs do not lead back to it is private; with a steady
loader no other is.  Whatever the loader, nothing but the target is opened for
itself, and that but once. -/
theorem loadAndInvoke_private_iff (ld : Loader σ) (entryPoint : String) (s : Session σ)
    (hresolve : resolveModule s.fs module directories (some suffix) = some target) :
    ∃ calls, ((loadAndInvoke ld module entryPoint directories suffix).run s).2.journal =
        s.journal ++ calls.map s.entry ∧
      calls.filter Call.opensForItself <+: [.load target .local] ∧
      (¬ ld.Circular s.fs directories target → Private target calls) ∧
      (ld.Steady s.fs →
        (Private target calls ↔ ¬ ld.Circular s.fs directories target)) := by
  obtain ⟨pursued, rest, hasked, hjournal, hall⟩ := exists_askedFor ld entryPoint s hresolve
  refine ⟨pursued ++ rest, hjournal, hasked.filter_opensForItself, hasked.isPrivate, ?_⟩
  intro hsteady
  refine ⟨?_, hasked.isPrivate⟩
  rintro hprivate ⟨q, hsame, hchain⟩
  cases hprivate.binding q .global (hall hsteady q hchain) hsame

/-- A process that sees one object, `/u/hello.so`. -/
def helloHost : Session Unit where
  fs := { tree := .directory 0o755 [
    (Utf8.encode "u", .directory 0o755 [(Utf8.encode "hello.so", .file 0o644 [])])] }
  loader := ()

theorem resolveModule_helloHost :
    resolveModule helloHost.fs "hello" ["/u"] (some ".so") = some "/u/hello.so" := by
  decide +kernel

/-- An object without needs is private; one that needs its own name is not. -/
theorem loadAndInvoke_private_iff_hello :
    (∃ calls, ((loadAndInvoke (.listing fun _ => []) "hello" "main" ["/u"] ".so").run
        helloHost).2.journal = calls.map helloHost.entry ∧ Private "/u/hello.so" calls) ∧
      ∃ calls, ((loadAndInvoke (.listing fun _ => ["hello.so"]) "hello" "main" ["/u"] ".so").run
        helloHost).2.journal = calls.map helloHost.entry ∧ ¬ Private "/u/hello.so" calls := by
  constructor
  · obtain ⟨calls, hjournal, -, hprivate, -⟩ := loadAndInvoke_private_iff
      (.listing fun _ => []) "main" helloHost resolveModule_helloHost
    refine ⟨calls, hjournal, hprivate ?_⟩
    rintro ⟨q, -, hchain⟩
    obtain ⟨_, ⟨_, ⟨_, _, hneeded, hname⟩, -⟩, -⟩ := TransGen.head'_iff.mp hchain
    cases hneeded
    cases hname
  · obtain ⟨calls, hjournal, -, -, hiff⟩ := loadAndInvoke_private_iff
      (.listing fun _ => ["hello.so"]) "main" helloHost resolveModule_helloHost
    refine ⟨calls, hjournal, fun hprivate => ?_⟩
    apply (hiff (Loader.steady_listing _ _)).mp hprivate
    have hfind : findLibrary helloHost.fs "hello.so" ["/u"] = some "/u/hello.so" := by
      decide +kernel
    exact ⟨"/u/hello.so", rfl, .single ⟨"hello.so", ⟨(), _, rfl, List.mem_cons_self⟩, ⟨(), rfl⟩,
      hfind⟩⟩

/-- An object that needs its own name is opened for all to use, and then again
for itself. -/
theorem target_opened_twice :
    let calls := ((loadAndInvoke (.listing fun _ => ["hello.so"]) "hello" "main" ["/u"] ".so").run
      helloHost).2.journal.map (·.call)
    calls = [.needed "/u/hello.so", .isResident "hello.so", .needed "/u/hello.so",
        .load "/u/hello.so" .global, .load "/u/hello.so" .local, .invoke "/u/hello.so" "main"] ∧
      ¬ Private "/u/hello.so" calls := by
  intro calls
  have hcalls : calls = [.needed "/u/hello.so", .isResident "hello.so", .needed "/u/hello.so",
      .load "/u/hello.so" .global, .load "/u/hello.so" .local,
      .invoke "/u/hello.so" "main"] := by
    decide +kernel
  refine ⟨hcalls, fun hprivate => ?_⟩
  have hopened : .load "/u/hello.so" .global ∈ calls := by simp [hcalls]
  cases hprivate.binding _ _ hopened rfl

end Action

end Confinement
