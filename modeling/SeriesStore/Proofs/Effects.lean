/-!
# Steps of stateful changes

A change of a state that can fail is opened one step at a time: a step that
succeeds hands its result and its state on, and a step that fails ends the
change in the state it has reached.
-/

namespace SeriesStore

variable {ε ε' σ α β : Type}

@[simp] theorem pure_apply (a : α) (s : σ) : (pure a : EStateM ε σ α) s = .ok a s := rfl

@[simp] theorem get_apply (s : σ) : (get : EStateM ε σ σ) s = .ok s s := rfl

@[simp] theorem set_apply (s s' : σ) : (set s' : EStateM ε σ PUnit) s = .ok ⟨⟩ s' := rfl

@[simp] theorem modifyGet_apply (f : σ → α × σ) (s : σ) :
    (modifyGet f : EStateM ε σ α) s = .ok (f s).1 (f s).2 := rfl

@[simp] theorem ofExcept_ok (a : α) (s : σ) :
    (MonadExcept.ofExcept (.ok a : Except ε α) : EStateM ε σ α) s = .ok a s := rfl

@[simp] theorem ofExcept_error (e : ε) (s : σ) :
    (MonadExcept.ofExcept (.error e : Except ε α) : EStateM ε σ α) s = .error e s := rfl

/-- A step that succeeds hands its result and its state to the rest. -/
theorem bind_of_ok {x : EStateM ε σ α} {f : α → EStateM ε σ β} {s s' : σ} {a : α}
    (h : x s = .ok a s') : (x >>= f) s = f a s' := by
  simp only [bind, EStateM.bind, h]

theorem map_of_ok {x : EStateM ε σ α} (f : α → β) {s s' : σ} {a : α} (h : x s = .ok a s') :
    (f <$> x) s = .ok (f a) s' := by
  simp only [Functor.map, EStateM.map, h]

/-- A step that fails ends the change. -/
theorem bind_of_error {x : EStateM ε σ α} {f : α → EStateM ε σ β} {s s' : σ} {e : ε}
    (h : x s = .error e s') : (x >>= f) s = .error e s' := by
  simp only [bind, EStateM.bind, h]

/-- A change that succeeds has succeeded in each of its steps. -/
theorem bind_eq_ok {x : EStateM ε σ α} {f : α → EStateM ε σ β} {s s'' : σ} {b : β}
    (h : (x >>= f) s = .ok b s'') : ∃ a s', x s = .ok a s' ∧ f a s' = .ok b s'' := by
  cases hx : x s with
  | ok a s' => exact ⟨a, s', rfl, (bind_of_ok hx).symm.trans h⟩
  | error e s' =>
    rw [bind_of_error hx] at h
    cases h

theorem map_of_error {x : EStateM ε σ α} (f : α → β) {s s' : σ} {e : ε} (h : x s = .error e s') :
    (f <$> x) s = .error e s' := by
  simp only [Functor.map, EStateM.map, h]

/-- Another name for a failure changes nothing where there is none. -/
theorem adaptExcept_of_ok {x : EStateM ε σ α} (f : ε → ε') {s s' : σ} {a : α}
    (h : x s = .ok a s') : x.adaptExcept f s = .ok a s' := by
  simp only [EStateM.adaptExcept, h]

theorem adaptExcept_of_error {x : EStateM ε σ α} (f : ε → ε') {s s' : σ} {e : ε}
    (h : x s = .error e s') : x.adaptExcept f s = .error (f e) s' := by
  simp only [EStateM.adaptExcept, h]

/-! ## Whole changes -/

/-- The state in which a change ends, whether it succeeds or fails. -/
def stateAfter (change : EStateM ε σ α) (s : σ) : σ :=
  match change s with
  | .ok _ s | .error _ s => s

/-- What a change answers. -/
def outcome (change : EStateM ε σ α) (s : σ) : Except ε α :=
  match change s with
  | .ok a _ => .ok a
  | .error e _ => .error e

theorem stateAfter_of_ok {x : EStateM ε σ α} {s s' : σ} {a : α} (h : x s = .ok a s') :
    stateAfter x s = s' := by
  unfold stateAfter
  rw [h]

theorem stateAfter_of_error {x : EStateM ε σ α} {s s' : σ} {e : ε} (h : x s = .error e s') :
    stateAfter x s = s' := by
  unfold stateAfter
  rw [h]

theorem outcome_of_ok {x : EStateM ε σ α} {s s' : σ} {a : α} (h : x s = .ok a s') :
    outcome x s = .ok a := by
  unfold outcome
  rw [h]

theorem outcome_of_error {x : EStateM ε σ α} {s s' : σ} {e : ε} (h : x s = .error e s') :
    outcome x s = .error e := by
  unfold outcome
  rw [h]

theorem of_outcome_ok {x : EStateM ε σ α} {s : σ} {a : α} (h : outcome x s = .ok a) :
    x s = .ok a (stateAfter x s) := by
  unfold outcome at h
  unfold stateAfter
  cases hx : x s with
  | ok b s' =>
    rw [hx] at h
    cases h
    rfl
  | error e s' =>
    rw [hx] at h
    cases h

@[simp] theorem stateAfter_ofExcept (x : Except ε α) (s : σ) :
    stateAfter (MonadExcept.ofExcept x : EStateM ε σ α) s = s := by
  cases x <;> rfl

theorem ofExcept_eq_ok {x : Except ε α} {s s' : σ} {a : α}
    (h : (MonadExcept.ofExcept x : EStateM ε σ α) s = .ok a s') : x = .ok a := by
  cases x <;> cases h
  rfl

theorem stateAfter_get_bind (f : σ → EStateM ε σ β) (s : σ) :
    stateAfter (get >>= f) s = stateAfter (f s) s := rfl

/-- What holds after a first step and is kept by the rest holds at the end. -/
theorem stateAfter_bind {x : EStateM ε σ α} {f : α → EStateM ε σ β} {s : σ} {p : σ → Prop}
    (hx : p (stateAfter x s)) (hf : ∀ a s', x s = .ok a s' → p s' → p (stateAfter (f a) s')) :
    p (stateAfter (x >>= f) s) := by
  cases h : x s with
  | ok a s' =>
    rw [stateAfter_of_ok h] at hx
    unfold stateAfter
    rw [bind_of_ok h]
    exact hf a s' h hx
  | error e s' =>
    rw [stateAfter_of_error h] at hx
    rwa [stateAfter_of_error (bind_of_error h)]

/-- A first step that changes nothing leaves the rest to be looked at. -/
theorem stateAfter_bind_of_reads {x : EStateM ε σ α} {f : α → EStateM ε σ β} {s : σ} {p : σ → Prop}
    (hreads : stateAfter x s = s) (hs : p s) (hf : ∀ a, x s = .ok a s → p (stateAfter (f a) s)) :
    p (stateAfter (x >>= f) s) := by
  refine stateAfter_bind (hreads.symm ▸ hs) fun a s' hok _ => ?_
  obtain rfl : s' = s := (stateAfter_of_ok hok).symm.trans hreads
  exact hf a hok

/-- What every step keeps holds after any number of steps. -/
theorem stateAfter_forM {f : α → EStateM ε σ PUnit} {p : σ → Prop}
    (hf : ∀ a s, p s → p (stateAfter (f a) s)) (as : List α) {s : σ} (h : p s) :
    p (stateAfter (as.forM f) s) := by
  induction as generalizing s with
  | nil => exact h
  | cons a as ih => exact stateAfter_bind (hf a s h) fun _ s' _ hs' => ih hs'

/-- Where some steps fail, one of them does, in the state to which those before it lead. -/
theorem forM_error {f : α → EStateM ε σ PUnit} {as : List α} {s s' : σ} {e : ε}
    (h : as.forM f s = .error e s') : ∃ before a after s₁, as = before ++ a :: after ∧
      before.forM f s = .ok ⟨⟩ s₁ ∧ f a s₁ = .error e s' := by
  induction as generalizing s with
  | nil => cases h
  | cons a as ih =>
    cases hstep : f a s with
    | error e₁ s₁ =>
      have hfail : (a :: as).forM f s = .error e₁ s₁ := bind_of_error hstep
      rw [hfail] at h
      cases h
      exact ⟨[], a, as, s, rfl, rfl, hstep⟩
    | ok u s₁ =>
      have hrest : (a :: as).forM f s = as.forM f s₁ := bind_of_ok hstep
      rw [hrest] at h
      obtain ⟨before, a', after, s₂, rfl, hbefore, hfail⟩ := ih h
      exact ⟨a :: before, a', after, s₂, rfl, (bind_of_ok hstep).trans hbefore, hfail⟩

/-! ## Runs of changes -/

section Runs

variable {ι : Type} (perform : ι → EStateM ε σ α)

/-- The state after some calls, of which each may fail. -/
def runAll (calls : List ι) (s : σ) : σ :=
  calls.foldl (fun s call => stateAfter (perform call) s) s

/-- What some calls answer, one after the other. -/
def outcomes : List ι → σ → List (Except ε α)
  | [], _ => []
  | call :: calls, s => outcome (perform call) s :: outcomes calls (stateAfter (perform call) s)

theorem outcomes_append (calls calls' : List ι) (s : σ) :
    outcomes perform (calls ++ calls') s =
      outcomes perform calls s ++ outcomes perform calls' (runAll perform calls s) := by
  induction calls generalizing s with
  | nil => rfl
  | cons call calls ih => exact congrArg _ (ih _)

end Runs

end SeriesStore
