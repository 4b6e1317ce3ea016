import Confinement.Proofs.Session.Trace

/-!
# Answers that do not change

A loader has a state of its own, so it may answer one question in two ways.
`Loader.Consistent answers` says of the questions of one run that it does not:
asked in this order, each is answered as `answers` has it, and nothing asked
for fails.  Nothing is said of questions that are not asked.

`Answered ld fs answers a V` says of an action what it does with such a loader.
Begun with the files `fs`, it asks questions and does nothing else, and moves
the loader along by these questions alone; this much holds of any answers.  If
they are consistent, there is a value, and `V` holds of it and the questions.

What is known of a first step is known only if its answers were consistent,
but the second step is taken in any case.  `Answered.bind` therefore hands it
to the second step as a premise of what is to be shown of its result.
-/

namespace Confinement

variable {σ ε α β : Type}

/-- The object that a question asks to be opened, and for whom. -/
def Call.opened? : Call → Option (Path × Binding)
  | .load path binding => some (path, binding)
  | _ => none

/-- The object whose needs are asked for. -/
def Call.examined? : Call → Option Path
  | .needed path => some path
  | _ => none

/-- What a loader may have to say: what each object needs, and which names are
mapped. -/
structure Answers where
  needs : Path → List String
  mapped : String → Bool

namespace Loader

variable (ld : Loader σ) (fs : FileSystem) (answers : Answers)

/-- The state of the loader after a question.  Running an entry point takes
more than the files to answer, and is left aside. -/
def next (st : σ) : Call → σ
  | .load path binding => (ld.load path binding fs st).2
  | .needed path => (ld.needed path fs st).2
  | .isResident name => (ld.isResident name fs st).2
  | .invoke .. => st

/-- The question is answered as it should be, and does not fail. -/
def Agrees (st : σ) : Call → Prop
  | .load path binding => ∃ handle, (ld.load path binding fs st).1 = .ok handle
  | .needed path => (ld.needed path fs st).1 = .ok (answers.needs path)
  | .isResident name => (ld.isResident name fs st).1 = answers.mapped name
  | .invoke .. => True

/-- The questions, asked one after the other, are all answered as they should
be. -/
def Consistent : σ → List Call → Prop
  | _, [] => True
  | st, call :: calls =>
    ld.Agrees fs answers st call ∧ Consistent (ld.next fs st call) calls

variable {ld fs answers}

theorem consistent_append {st : σ} {calls calls' : List Call} :
    ld.Consistent fs answers st (calls ++ calls') ↔
      ld.Consistent fs answers st calls ∧
        ld.Consistent fs answers (calls.foldl (ld.next fs) st) calls' := by
  induction calls generalizing st with
  | nil => simp [Consistent]
  | cons call calls ih => simp only [List.cons_append, Consistent, List.foldl_cons, ih, and_assoc]

theorem Consistent.of_forall (h : ∀ st call, ld.Agrees fs answers st call) (st : σ)
    (calls : List Call) : ld.Consistent fs answers st calls := by
  induction calls generalizing st with
  | nil => trivial
  | cons call calls ih => exact ⟨h st call, ih _⟩

end Loader

namespace Action

/-- Begun with the files `fs`, the action asks questions and does nothing else;
if they are answered as they should be, there is a value, and `V` holds of it
and of the questions. -/
def Answered (ld : Loader σ) (fs : FileSystem) (answers : Answers) (a : Action σ ε α)
    (V : α → List Call → Prop) : Prop :=
  ∀ s : Session σ, s.fs = fs → ∃ calls, Asks calls s (a.run s).2 ∧
    (a.run s).2.loader = calls.foldl (ld.next fs) s.loader ∧
    (ld.Consistent fs answers s.loader calls → ∃ x, (a.run s).1 = .ok x ∧ V x calls)

variable {ld : Loader σ} {fs : FileSystem} {answers : Answers} {V : α → List Call → Prop}
  {V' : β → List Call → Prop}

theorem Answered.mono {a : Action σ ε α} {W : α → List Call → Prop}
    (h : Answered ld fs answers a W) (himp : ∀ x calls, W x calls → V x calls) :
    Answered ld fs answers a V := by
  intro s hs
  obtain ⟨calls, hasks, hloader, hvalue⟩ := h s hs
  refine ⟨calls, hasks, hloader, fun hconsistent => ?_⟩
  obtain ⟨x, hx, hW⟩ := hvalue hconsistent
  exact ⟨x, hx, himp x calls hW⟩

theorem answered_pure {a : α} (h : V a []) :
    Answered ld fs answers (pure a : Action σ ε α) V := by
  intro s _
  exact ⟨[], .refl s, rfl, fun _ => ⟨a, rfl, h⟩⟩

theorem Answered.bind {a : Action σ ε α} {f : α → Action σ ε β} (ha : Answered ld fs answers a V)
    (hf : ∀ x, Answered ld fs answers (f x) fun y calls' =>
      ∀ calls, V x calls → V' y (calls ++ calls')) : Answered ld fs answers (a >>= f) V' := by
  intro s hs
  obtain ⟨calls, hasks, hloader, hvalue⟩ := ha s hs
  cases hrun : a.run s with
  | mk result s₁ =>
      rw [hrun] at hasks hloader hvalue
      cases result with
      | error e =>
          rw [run_bind_of_error hrun]
          refine ⟨calls, hasks, hloader, fun hconsistent => ?_⟩
          obtain ⟨_, heq, -⟩ := hvalue hconsistent
          cases heq
      | ok x =>
          rw [run_bind_of_ok hrun]
          obtain ⟨calls', hasks', hloader', hvalue'⟩ := hf x s₁ (hasks.fs_eq.trans hs)
          -- The loader stands where the first questions have left it, so the answers to the others
          -- are consistent from there.
          have hmoved : calls.foldl (ld.next fs) s.loader = s₁.loader := hloader.symm
          refine ⟨calls ++ calls', hasks.trans hasks', ?_, fun hconsistent => ?_⟩
          · rw [List.foldl_append, hmoved, hloader']
          · rw [Loader.consistent_append, hmoved] at hconsistent
            obtain ⟨_, heq, hx⟩ := hvalue hconsistent.1
            cases heq
            obtain ⟨y, hy, hall⟩ := hvalue' hconsistent.2
            exact ⟨y, hy, hall calls hx⟩

theorem Answered.files_bind {f : FileSystem → Action σ ε α} (h : Answered ld fs answers (f fs) V) :
    Answered ld fs answers (files >>= f) V := by
  rintro s rfl
  exact h s rfl

/-- A first step that writes lines to the log. -/
theorem Answered.note_bind {lines : Log} {f : Unit → Action σ ε α}
    (h : Answered ld fs answers (f ()) V) : Answered ld fs answers (note lines >>= f) V := by
  rintro s hs
  obtain ⟨calls, hasks, hloader, hvalue⟩ := h { s with log := s.log ++ lines } hs
  have hnote : Asks [] s { s with log := s.log ++ lines } := Quiet.asks ⟨_, rfl⟩
  exact ⟨calls, hnote.trans hasks, hloader, hvalue⟩

/-- Closing what was opened changes neither the value nor the questions; the
loader is told of it. -/
theorem Answered.closing {discards : Except (Stop ε) α → Bool} {a : Action σ ε α}
    (h : Answered ld fs answers a V) {s : Session σ} (hs : s.fs = fs) :
    ∃ calls, Asks calls s ((closing ld discards a).run s).2 ∧
      (ld.Consistent fs answers s.loader calls →
        ∃ x, ((closing ld discards a).run s).1 = .ok x ∧ V x calls) := by
  obtain ⟨calls, ⟨_, _, log, hafter⟩, -, hvalue⟩ := h s hs
  obtain ⟨loader, opened, hrun⟩ := exists_run_closing ld discards a s
  rw [hrun, hafter]
  exact ⟨calls, ⟨loader, opened, log, rfl⟩, hvalue⟩

/-! ## Questions -/

theorem answered_needed {path : Path} :
    Answered ld fs answers (needed ld path) fun names calls =>
      names = answers.needs path ∧ calls = [.needed path] := by
  rintro s rfl
  rw [run_needed]
  refine ⟨[.needed path], ⟨_, s.opened, s.log, rfl⟩, rfl, ?_⟩
  rintro ⟨hagrees, -⟩
  rw [show (ld.needed path s.fs s.loader).1 = .ok (answers.needs path) from hagrees]
  exact ⟨_, rfl, rfl, rfl⟩

theorem answered_isResident {name : String} :
    Answered ld fs answers (isResident ld name) fun mapped calls =>
      mapped = answers.mapped name ∧ calls = [.isResident name] := by
  rintro s rfl
  rw [run_isResident]
  refine ⟨[.isResident name], ⟨_, s.opened, s.log, rfl⟩, rfl, ?_⟩
  rintro ⟨hagrees, -⟩
  exact ⟨_, rfl, hagrees, rfl⟩

theorem answered_load {path : Path} {binding : Binding} :
    Answered ld fs answers (load ld path binding) fun unit calls =>
      unit.origin = path ∧ calls = [.load path binding] := by
  rintro s rfl
  obtain ⟨s', hrun, hasks, hloader⟩ := exists_run_load ld path binding s
  rw [hrun]
  refine ⟨[.load path binding], hasks, hloader, ?_⟩
  rintro ⟨⟨handle, hagrees⟩, -⟩
  rw [hagrees]
  exact ⟨_, rfl, rfl, rfl⟩

end Action

end Confinement
