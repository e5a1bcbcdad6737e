/-!
# When a computation succeeds

A computation that is made of others succeeds exactly if those do. With this a success is taken apart
into the successes of its parts, and no case is left for the failures.
-/

namespace ByteRecord

variable {ε α β : Type}

/-- A chain succeeds if its first link does and the next one succeeds with what the first gives. -/
theorem bind_eq_ok_iff {x : Except ε α} {f : α → Except ε β} {b : β} :
    x >>= f = .ok b ↔ ∃ a, x = .ok a ∧ f a = .ok b := by
  cases x with
  | error cause =>
    constructor
    · intro h
      cases h
    · rintro ⟨a, h, -⟩
      cases h
  | ok value =>
    constructor
    · intro h
      exact ⟨value, rfl, h⟩
    · rintro ⟨a, h, hf⟩
      injection h with h
      rw [h]
      exact hf

/-- What is made of an outcome is a success if the outcome is one. -/
theorem map_eq_ok_iff {x : Except ε α} {f : α → β} {b : β} :
    x.map f = .ok b ↔ ∃ a, x = .ok a ∧ f a = b := by
  cases x with
  | error cause =>
    constructor
    · intro h
      cases h
    · rintro ⟨a, h, -⟩
      cases h
  | ok value =>
    constructor
    · intro h
      injection h with h
      exact ⟨value, rfl, h⟩
    · rintro ⟨a, h, rfl⟩
      injection h with h
      rw [h]
      rfl

/-- What a list of computations gives comes from its links, one from each. -/
theorem exists_of_mapM {f : α → Except ε β} {as : List α} {bs : List β}
    (h : as.mapM f = .ok bs) : bs.length = as.length ∧ ∀ b ∈ bs, ∃ a ∈ as, f a = .ok b := by
  induction as generalizing bs with
  | nil =>
    injection h with h
    exact h ▸ ⟨rfl, List.forall_mem_nil _⟩
  | cons a rest ih =>
    rw [List.mapM_cons] at h
    obtain ⟨b, hb, h⟩ := bind_eq_ok_iff.mp h
    obtain ⟨others, hothers, h⟩ := bind_eq_ok_iff.mp h
    injection h with h
    subst h
    obtain ⟨hlength, hsources⟩ := ih hothers
    refine ⟨congrArg Nat.succ hlength, List.forall_mem_cons.mpr ⟨⟨a, List.mem_cons_self, hb⟩, ?_⟩⟩
    intro other hother
    obtain ⟨source, hsource, hf⟩ := hsources other hother
    exact ⟨source, List.mem_cons_of_mem _ hsource, hf⟩

/-- An outcome that has a value is a success with this value. -/
theorem eq_ok_of_toOption {x : Except ε α} {a : α} (h : x.toOption = some a) : x = .ok a := by
  cases x with
  | error cause => cases h
  | ok value =>
    injection h with h
    rw [h]

end ByteRecord
