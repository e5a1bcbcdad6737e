/-!
# Actions on a state

An action works on a state and may fail. Nothing is undone when it does: the state is left as the
steps before the failure made it.
-/

namespace ByteRecord

/-- An action on states `σ` that gives an `α` or fails with an `ε`. -/
abbrev Action (σ ε α : Type) := ExceptT ε (StateM σ) α

namespace Action

variable {σ ε ε' α β : Type}

/-- How an action ends, and the state that it leaves. -/
def on (action : Action σ ε α) (s : σ) : Except ε α × σ := action.run s

@[simp] theorem on_pure (value : α) (s : σ) : on (pure value : Action σ ε α) s = (.ok value, s) :=
  rfl

@[simp] theorem on_throw (cause : ε) (s : σ) :
    on (throw cause : Action σ ε α) s = (.error cause, s) := rfl

@[simp] theorem on_get (s : σ) : on (get : Action σ ε σ) s = (.ok s, s) := rfl

@[simp] theorem on_set (next s : σ) : on (set next : Action σ ε PUnit) s = (.ok (), next) := rfl

@[simp] theorem on_modify (change : σ → σ) (s : σ) :
    on (modify change : Action σ ε PUnit) s = (.ok (), change s) := rfl

@[simp] theorem on_lift (result : Except ε α) (s : σ) :
    on (liftM result : Action σ ε α) s = (result, s) := rfl

/-- A second step follows where the first one leaves off, unless that fails. -/
theorem on_bind (first : Action σ ε α) (next : α → Action σ ε β) (s : σ) :
    on (first >>= next) s
      = match on first s with
        | (.ok value, later) => on (next value) later
        | (.error cause, later) => (.error cause, later) := by
  change (match (first.run s).1 with
    | .ok value => ExceptT.run (next value)
    | .error cause => pure (.error cause)) (first.run s).2 = _
  unfold on
  cases first.run s with
  | mk result later =>
    cases result with
    | ok value => rfl
    | error cause => rfl

/-- The value of a step may be changed. -/
theorem on_map (f : α → β) (action : Action σ ε α) (s : σ) :
    on (f <$> action) s = ((on action s).1.map f, (on action s).2) := by
  rw [map_eq_pure_bind, on_bind]
  cases on action s with
  | mk result later =>
    cases result with
    | ok value => rfl
    | error cause => rfl

/-- The failure of a step may be reported as another. -/
theorem on_adapt (report : ε → ε') (action : Action σ ε α) (s : σ) :
    on (action.adapt report) s = ((on action s).1.mapError report, (on action s).2) := rfl

end Action

end ByteRecord
