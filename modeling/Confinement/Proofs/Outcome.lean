/-!
# Computations with a result

A computation that may fail, and may change a state, is taken apart at its
binds (`bind_eq_ok`, `run_bind_eq_ok`), down to its elementary steps.
-/

namespace Confinement

/-! ## Results -/

section

variable {ε ε' α β : Type} {x : Except ε α} {a : α} {b : β}

theorem bind_eq_ok {f : α → Except ε β} :
    (x >>= f) = .ok b ↔ ∃ a, x = .ok a ∧ f a = .ok b := by
  cases x <;> simp [bind, Except.bind]

theorem map_eq_ok {f : α → β} : x.map f = .ok b ↔ ∃ a, x = .ok a ∧ f a = b := by
  cases x <;> simp [Except.map]

theorem mapError_eq_ok {f : ε → ε'} : x.mapError f = .ok a ↔ x = .ok a := by
  cases x with
  | error e => constructor <;> intro h <;> cases h
  | ok b =>
      constructor
      · intro h
        cases h
        rfl
      · intro h
        cases h
        rfl

end

/-- The error that a result is, if it is one. -/
def fault? {ε α : Type} : Except ε α → Option ε
  | .ok _ => none
  | .error e => some e

/-! ## Runs -/

theorem run_bind_of_ok {ε σ α β : Type} {x : ExceptT ε (StateM σ) α}
    {f : α → ExceptT ε (StateM σ) β} {s s' : σ} {a : α} (hx : x.run s = (.ok a, s')) :
    (x >>= f).run s = (f a).run s' := by
  rw [ExceptT.run_bind]
  simp only [bind, StateT.bind, hx]

theorem run_bind_of_error {ε σ α β : Type} {x : ExceptT ε (StateM σ) α}
    {f : α → ExceptT ε (StateM σ) β} {s s' : σ} {e : ε} (hx : x.run s = (.error e, s')) :
    (x >>= f).run s = (.error e, s') := by
  rw [ExceptT.run_bind]
  simp only [bind, StateT.bind, hx]
  rfl

theorem run_bind_congr {ε σ α β : Type} {x y : ExceptT ε (StateM σ) α}
    (f : α → ExceptT ε (StateM σ) β) {s : σ} (h : x.run s = y.run s) :
    (x >>= f).run s = (y >>= f).run s := by
  rw [ExceptT.run_bind, ExceptT.run_bind]
  simp only [bind, StateT.bind, h]

/-- A computation with two steps ends with the first one if that fails, and
with the second one otherwise. -/
theorem run_bind_cases {ε σ α β : Type} {x : ExceptT ε (StateM σ) α}
    {f : α → ExceptT ε (StateM σ) β} {s s'' : σ} {r : Except ε β} (h : (x >>= f).run s = (r, s'')) :
    (∃ e, x.run s = (.error e, s'') ∧ r = .error e) ∨
      ∃ a s', x.run s = (.ok a, s') ∧ (f a).run s' = (r, s'') := by
  cases hx : x.run s with
  | mk result s' =>
      cases result with
      | error e =>
          rw [run_bind_of_error hx] at h
          obtain ⟨rfl, rfl⟩ := Prod.mk.inj h
          exact Or.inl ⟨e, rfl, rfl⟩
      | ok a => exact Or.inr ⟨a, s', rfl, run_bind_of_ok hx ▸ h⟩

/-- A computation with two steps succeeds if and only if both do. -/
theorem run_bind_eq_ok {ε σ α β : Type} {x : ExceptT ε (StateM σ) α}
    {f : α → ExceptT ε (StateM σ) β} {s s'' : σ} {b : β} :
    (x >>= f).run s = (.ok b, s'') ↔
      ∃ a s', x.run s = (.ok a, s') ∧ (f a).run s' = (.ok b, s'') := by
  constructor
  · intro h
    rw [ExceptT.run_bind] at h
    cases hx : x.run s with
    | mk result s' =>
        cases result with
        | error e =>
            simp only [bind, StateT.bind, hx] at h
            cases h
        | ok a =>
            refine ⟨a, s', rfl, ?_⟩
            simpa only [bind, StateT.bind, hx] using h
  · rintro ⟨a, s', hx, hf⟩
    rw [ExceptT.run_bind]
    simpa only [bind, StateT.bind, hx] using hf

theorem exists_run_bind {ε σ α β : Type} {x : ExceptT ε (StateM σ) α}
    {f : α → ExceptT ε (StateM σ) β} {s s' : σ} {a : α} (hx : x.run s = (.ok a, s'))
    (hf : ∃ b s'', (f a).run s' = (.ok b, s'')) : ∃ b s'', (x >>= f).run s = (.ok b, s'') := by
  obtain ⟨b, s'', hrun⟩ := hf
  exact ⟨b, s'', run_bind_eq_ok.mpr ⟨a, s', hx, hrun⟩⟩

theorem run_pure_eq_ok {ε σ α : Type} {a b : α} {s s' : σ} :
    (pure a : ExceptT ε (StateM σ) α).run s = (.ok b, s') ↔ a = b ∧ s = s' := by
  constructor
  · intro h
    cases h
    exact ⟨rfl, rfl⟩
  · rintro ⟨rfl, rfl⟩
    rfl

theorem run_get {ε σ : Type} (s : σ) : (get : ExceptT ε (StateM σ) σ).run s = (.ok s, s) :=
  rfl

theorem run_get_eq_ok {ε σ : Type} {s s' t : σ} :
    (get : ExceptT ε (StateM σ) σ).run s = (.ok t, s') ↔ s = t ∧ s = s' := by
  constructor
  · intro h
    cases h
    exact ⟨rfl, rfl⟩
  · rintro ⟨rfl, rfl⟩
    rfl

theorem run_set_eq_ok {ε σ : Type} {s s' t : σ} {u : PUnit} :
    (set t : ExceptT ε (StateM σ) PUnit).run s = (.ok u, s') ↔ t = s' := by
  constructor
  · intro h
    cases h
    rfl
  · rintro rfl
    rfl

theorem run_throw_ne_ok {ε σ α : Type} {e : ε} {a : α} {s s' : σ} :
    (throw e : ExceptT ε (StateM σ) α).run s ≠ (.ok a, s') := by
  intro h
  cases h

theorem run_tryCatch {ε σ α : Type} (x : ExceptT ε (StateM σ) α)
    (handler : ε → ExceptT ε (StateM σ) α)
    (s : σ) : (tryCatch x handler).run s =
      match x.run s with
      | (.ok a, s') => (.ok a, s')
      | (.error e, s') => (handler e).run s' := by
  simp only [tryCatch, tryCatchThe, MonadExceptOf.tryCatch, ExceptT.tryCatch, ExceptT.run,
    ExceptT.mk, bind, StateT.bind]
  cases x s with
  | mk result s₁ => cases result <;> rfl

/-- A computation whose failures are caught ends with the handler if it
fails. -/
theorem run_tryCatch_cases {ε σ α : Type} {x : ExceptT ε (StateM σ) α}
    {handler : ε → ExceptT ε (StateM σ) α} {s s' : σ} {r : Except ε α}
    (h : (tryCatch x handler).run s = (r, s')) :
    x.run s = (r, s') ∨ ∃ e s₁, x.run s = (.error e, s₁) ∧ (handler e).run s₁ = (r, s') := by
  rw [run_tryCatch] at h
  cases hx : x.run s with
  | mk result s₁ =>
      rw [hx] at h
      cases result with
      | error e => exact Or.inr ⟨e, s₁, rfl, h⟩
      | ok a => exact Or.inl h

/-- Where failures are only handed on, catching them changes no result. -/
theorem run_tryCatch_eq_ok {ε σ α : Type} {x : ExceptT ε (StateM σ) α}
    {handler : ε → ExceptT ε (StateM σ) α} {s s' : σ} {a : α}
    (hthrows : ∀ e s, (handler e).run s ≠ (.ok a, s')) :
    (tryCatch x handler).run s = (.ok a, s') ↔ x.run s = (.ok a, s') := by
  constructor
  · intro h
    rcases run_tryCatch_cases h with hx | ⟨e, s₁, -, hhandler⟩
    · exact hx
    · exact absurd hhandler (hthrows e s₁)
  · intro h
    rw [run_tryCatch, h]

/-! ## What holds however a run ends -/

/-- What holds of the state before a computation holds after it, whatever its
result. -/
def Maintains {ε σ α : Type} (P : σ → Prop) (x : ExceptT ε (StateM σ) α) : Prop :=
  ∀ ⦃s s' r⦄, P s → x.run s = (r, s') → P s'

namespace Maintains

variable {ε σ α β : Type} {P : σ → Prop} {x : ExceptT ε (StateM σ) α}

theorem pure (a : α) : Maintains P (Pure.pure a : ExceptT ε (StateM σ) α) := by
  intro s s' r hs hrun
  cases hrun
  exact hs

theorem throw (e : ε) : Maintains P (MonadExcept.throw e : ExceptT ε (StateM σ) α) := by
  intro s s' r hs hrun
  cases hrun
  exact hs

theorem get : Maintains P (MonadState.get : ExceptT ε (StateM σ) σ) := by
  intro s s' r hs hrun
  cases hrun
  exact hs

theorem bind {f : α → ExceptT ε (StateM σ) β} (hx : Maintains P x) (hf : ∀ a, Maintains P (f a)) :
    Maintains P (x >>= f) := by
  intro s s'' r hs hrun
  rcases run_bind_cases hrun with ⟨e, hfirst, -⟩ | ⟨a, s', hfirst, hrest⟩
  · exact hx hs hfirst
  · exact hf a (hx hs hfirst) hrest

theorem tryCatch {handler : ε → ExceptT ε (StateM σ) α} (hx : Maintains P x)
    (hhandler : ∀ e, Maintains P (handler e)) :
    Maintains P (MonadExcept.tryCatch x handler) := by
  intro s s'' r hs hrun
  rcases run_tryCatch_cases hrun with hfirst | ⟨e, s', hfirst, hrest⟩
  · exact hx hs hfirst
  · exact hhandler e (hx hs hfirst) hrest

theorem foldlM {f : β → α → ExceptT ε (StateM σ) β} (hf : ∀ b a, Maintains P (f b a))
    (xs : List α) (b : β) : Maintains P (xs.foldlM f b) := by
  induction xs generalizing b with
  | nil => exact .pure b
  | cons a xs ih =>
      rw [List.foldlM_cons]
      exact (hf b a).bind ih

end Maintains

end Confinement
