import ByteRecord.Proofs.Decode.Inversion

/-!
# Where decoding stops

Decoding stops short of a match in one of two ways: the bytes do not match, or there is an error. What
is put together from parts, one behind the other, stops in the way of the part that does, and every part
before it matches. `Outcome.Halts` stands for both ways, so that this is shown only once.
-/

namespace ByteRecord

namespace Outcome

variable {α β : Type}

/-- The outcome is no match: an error, if its cause is given, and otherwise bytes that do not match. -/
def Halts (o : Outcome α) (cause? : Option Error) : Prop :=
  match o.verdict with
  | .matched _ => False
  | .noMatch => cause? = none
  | .failed cause => cause? = some cause

variable {o : Outcome α} {r : Reader} {cause? : Option Error}

@[simp] theorem not_matched_halts {value : α} : ¬ (matched value r).Halts cause? := id

/-- A sequence stops where its first part does, or where that matches and the second part stops. -/
theorem andThen_halts_iff {f : α → Reader → Outcome β} :
    (o.andThen f).Halts cause? ↔
      o.Halts cause? ∨ ∃ value mid, o.Matches value mid ∧ (f value mid).Halts cause? := by
  obtain ⟨verdict, place, trace⟩ := o
  cases verdict with
  | matched value => simp [andThen, Halts, Matches, and_assoc]
  | noMatch => simp [andThen, Halts, Matches]
  | failed cause => simp [andThen, Halts, Matches]

@[simp] theorem map_halts_iff {f : α → β} : (o.map f).Halts cause? ↔ o.Halts cause? := by
  simp [map, andThen_halts_iff]

@[simp] theorem noting_halts_iff {event : Event} :
    (o.noting event).Halts cause? ↔ o.Halts cause? := by
  obtain ⟨verdict, place, trace⟩ := o
  cases verdict <;> simp [noting, Halts]

/-- So many elements stop exactly where fewer of them match and the next one stops. -/
theorem repeated_halts_iff {decode : Reader → Outcome Json} {total left : Nat} :
    (repeated decode total left r).Halts cause? ↔
      ∃ items mid, Run decode r items mid ∧ items.length < left ∧ (decode mid).Halts cause? := by
  induction left generalizing r with
  | zero => simp [repeated]
  | succ left ih =>
    simp only [repeated, andThen_halts_iff, noting_halts_iff, noting_matches_iff, map_halts_iff, ih]
    constructor
    · rintro (hfirst | ⟨value, mid, hfirst, items, next, run, hlength, hnext⟩)
      · exact ⟨[], r, .nil, Nat.succ_pos left, hfirst⟩
      · exact ⟨value :: items, next, .cons hfirst run, Nat.succ_lt_succ hlength, hnext⟩
    · rintro ⟨items, next, run, hlength, hnext⟩
      cases run with
      | nil => exact Or.inl hnext
      | cons first rest =>
        have hlater := Nat.lt_of_succ_lt_succ hlength
        exact Or.inr ⟨_, _, first, _, _, rest, hlater, hnext⟩

end Outcome

namespace Node

/-- Fields stop exactly where one of them does behind matches of those before it. -/
theorem decodeFields_halts_iff {r : Reader} {cause? : Option Error} {done : Members}
    {fields : List (String × Node)} :
    (decodeFields done fields r).Halts cause? ↔
      ∃ before name node behind added mid, fields = before ++ (name, node) :: behind
        ∧ FieldRun done before r added mid
        ∧ (node.decode (some (done ++ added)) mid).Halts cause? := by
  induction fields generalizing done r with
  | nil => simp [decodeFields]
  | cons field fields ih =>
    obtain ⟨name, node⟩ := field
    simp only [decodeFields, Outcome.andThen_halts_iff, Outcome.noting_halts_iff,
      Outcome.noting_matches_iff, ih]
    constructor
    · rintro (hfirst |
        ⟨value, mid, hfirst, before, later, found, behind, added, next, rfl, run, hnext⟩)
      · refine ⟨[], name, node, fields, [], r, rfl, .nil, ?_⟩
        rwa [List.append_nil]
      · refine ⟨(name, node) :: before, later, found, behind, (name, value) :: added, next, rfl,
          .cons hfirst run, ?_⟩
        rwa [List.append_assoc, List.singleton_append] at hnext
    · rintro ⟨before, later, found, behind, added, next, hfields, run, hnext⟩
      cases run with
      | nil =>
        injection hfields with hfield hrest
        cases hfield
        rw [List.append_nil] at hnext
        exact Or.inl hnext
      | cons first rest =>
        injection hfields with hfield hrest
        cases hfield
        refine Or.inr ⟨_, _, first, _, later, found, behind, _, next, hrest, rest, ?_⟩
        rwa [List.append_assoc, List.singleton_append]

end Node

end ByteRecord
