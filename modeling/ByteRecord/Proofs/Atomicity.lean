import ByteRecord.Cursor.Operation
import ByteRecord.FixedLayout

/-!
# Failing without a trace

Nothing undoes what an action has changed before it fails. An action is atomic all the same if its
checks come before its changes: a step that only looks may be followed by an atomic one, and an atomic
one by steps that cannot fail. Reading, writing and setting a field of a fixed layout are of this
kind, and so is every operation on a cursor.
-/

namespace ByteRecord

namespace Action

variable {σ ε ε' α β : Type} {action : Action σ ε α} {next : α → Action σ ε β}

/-- An action that leaves the state alone, however it ends. -/
def Steady (action : Action σ ε α) : Prop := ∀ s, (action.on s).2 = s

/-- An action that does not fail. -/
def Sure (action : Action σ ε α) : Prop := ∀ s, ∃ value, (action.on s).1 = .ok value

/-- An action that leaves the state alone if it fails. -/
def Atomic (action : Action σ ε α) : Prop :=
  ∀ s cause, (action.on s).1 = .error cause → (action.on s).2 = s

theorem Steady.atomic (h : Steady action) : Atomic action := fun s _ _ => h s

theorem Sure.atomic (h : Sure action) : Atomic action := by
  intro s cause hcause
  obtain ⟨value, hvalue⟩ := h s
  rw [hvalue] at hcause
  cases hcause

theorem steady_get : Steady (get : Action σ ε σ) := fun _ => rfl

theorem steady_lift (result : Except ε α) : Steady (liftM result : Action σ ε α) := fun _ => rfl

theorem steady_throw (cause : ε) : Steady (throw cause : Action σ ε α) := fun _ => rfl

theorem sure_pure (value : α) : Sure (pure value : Action σ ε α) := fun _ => ⟨value, rfl⟩

theorem sure_set (next : σ) : Sure (set next : Action σ ε PUnit) := fun _ => ⟨(), rfl⟩

theorem sure_modify (change : σ → σ) : Sure (modify change : Action σ ε PUnit) := fun _ => ⟨(), rfl⟩

/-- Steps that cannot fail cannot fail together. -/
theorem Sure.bind (first : Sure action) (rest : ∀ value, Sure (next value)) :
    Sure (action >>= next) := by
  intro s
  obtain ⟨value, hvalue⟩ := first s
  rw [on_bind]
  cases haction : action.on s with
  | mk result later =>
    rw [haction] at hvalue
    cases hvalue
    exact rest value later

/-- A check may come before an atomic step. -/
theorem Steady.bind (first : Steady action) (rest : ∀ value, Atomic (next value)) :
    Atomic (action >>= next) := by
  intro s
  have hsame := first s
  rw [on_bind]
  cases haction : action.on s with
  | mk result later =>
    rw [haction] at hsame
    obtain rfl : later = s := hsame
    cases result with
    | ok value => exact rest value later
    | error cause => exact fun _ _ => rfl

/-- An atomic step may come before changes that cannot fail. -/
theorem Atomic.bind (first : Atomic action) (rest : ∀ value, Sure (next value)) :
    Atomic (action >>= next) := by
  intro s
  have hsame := first s
  rw [on_bind]
  cases haction : action.on s with
  | mk result later =>
    rw [haction] at hsame
    cases result with
    | error cause => exact fun _ _ => hsame cause rfl
    | ok value =>
      intro cause hcause
      obtain ⟨answer, hanswer⟩ := rest value later
      dsimp only at hcause
      rw [hanswer] at hcause
      cases hcause

theorem Atomic.map (h : Atomic action) (f : α → β) : Atomic (f <$> action) := by
  rw [map_eq_pure_bind]
  exact h.bind fun value => sure_pure (f value)

theorem Atomic.adapt (h : Atomic action) (report : ε → ε') : Atomic (action.adapt report) := by
  intro s cause hcause
  rw [on_adapt] at hcause ⊢
  cases haction : (action.on s).1 with
  | error inner => exact h s inner haction
  | ok value =>
    rw [haction] at hcause
    cases hcause

end Action

open ByteRecord.Action

namespace Cursor

theorem atomic_reading {α : Type} (read : Reader → Except BoundsError (α × Reader)) :
    Atomic (reading read) := by
  refine steady_get.bind fun c => (steady_lift _).bind fun found => ?_
  exact ((sure_modify _).bind fun _ => sure_pure _).atomic

theorem atomic_reserve (count : Nat) : Atomic (reserve count) := by
  refine steady_get.bind fun c => ?_
  dsimp only
  split
  · exact (steady_throw _).atomic
  · split
    · exact (sure_pure _).atomic
    · split
      · exact (steady_throw _).atomic
      · split
        · exact (sure_modify _).atomic
        · exact (steady_throw _).atomic

theorem atomic_write (w : Write) : Atomic (write w) :=
  (atomic_reserve w.size).bind fun _ => sure_modify _

theorem atomic_replying {α : Type} (read : Reader → Except BoundsError (α × Reader))
    (reply : α → Reply) : Atomic (replying read reply) :=
  ((atomic_reading read).adapt _).map _

theorem atomic_writing (w : Write) : Atomic (writing w) :=
  ((atomic_write w).adapt _).map _

end Cursor

/-- Every operation on a cursor checks before it changes anything. -/
theorem Operation.atomic (operation : Operation) : Atomic operation.action := by
  cases operation with
  | seek x => exact ((sure_modify _).bind fun _ => sure_pure _).atomic
  | skip count => exact Cursor.atomic_replying _ _
  | setGrowable growable => exact ((sure_modify _).bind fun _ => sure_pure _).atomic
  | setOrder order => exact ((sure_modify _).bind fun _ => sure_pure _).atomic
  | take => exact steady_get.bind fun c => ((sure_set _).bind fun _ => sure_pure _).atomic
  | readScalar type order => exact steady_get.bind fun c => Cursor.atomic_replying _ _
  | readText count => exact Cursor.atomic_replying _ _
  | readTerminatedText width => exact Cursor.atomic_replying _ _
  | readScalars type count order => exact steady_get.bind fun c => Cursor.atomic_replying _ _
  | writeScalar type value order => exact steady_get.bind fun c => Cursor.atomic_writing _
  | writeText text width => exact Cursor.atomic_writing _
  | writeTerminatedText text width => exact Cursor.atomic_writing _
  | writeBytes bytes => exact Cursor.atomic_writing _
  | writeZeros count => exact Cursor.atomic_writing _

/-- A field is encoded on its own before the buffer is written to. -/
theorem FixedLayout.atomic_update (layout : FixedLayout) (name : String) (value : Json) :
    Atomic (layout.update name value) := by
  refine steady_get.bind fun bytes => (steady_lift _).bind fun field => ?_
  exact (steady_lift _).bind fun _ => (sure_modify _).atomic

end ByteRecord
