import ByteRecord.Proofs.Decode.Halting

/-!
# What does not match

A part that does not match makes the whole not match, wherever everything before it matches; a branch
does not match where none of its alternatives does, and the elements up to the end of the data match in
any case. So it comes down to the demands of tags, which are the only parts that do not match by
themselves.
-/

namespace ByteRecord

namespace Outcome

variable {α β : Type} {o : Outcome α} {r : Reader} {decode : Reader → Outcome Json}

theorem halts_none_iff : o.Halts none ↔ o.verdict = .noMatch := by
  rw [Halts]
  cases o.verdict <;> simp

/-- A sequence does not match if its first part does not, or if that matches and the second does
not. -/
theorem andThen_noMatch_iff {f : α → Reader → Outcome β} :
    (o.andThen f).verdict = .noMatch ↔
      o.verdict = .noMatch ∨ ∃ value mid, o.Matches value mid ∧ (f value mid).verdict = .noMatch := by
  simp only [← halts_none_iff, andThen_halts_iff]

@[simp] theorem map_noMatch_iff {f : α → β} :
    (o.map f).verdict = .noMatch ↔ o.verdict = .noMatch := by
  rw [← halts_none_iff, map_halts_iff, halts_none_iff]

@[simp] theorem noting_noMatch_iff {event : Event} :
    (o.noting event).verdict = .noMatch ↔ o.verdict = .noMatch := by
  rw [← halts_none_iff, noting_halts_iff, halts_none_iff]

/-- A demand does not match if nothing does, or if it is not met. -/
theorem demanding_noMatch_iff {admits : α → Bool} {event : α → Event} :
    (o.demanding admits event).verdict = .noMatch ↔
      o.verdict = .noMatch ∨ ∃ value mid, o.Matches value mid ∧ admits value = false := by
  have hdemand : ∀ value mid,
      (if admits value then matched value mid
        else ⟨.noMatch, mid, [event value]⟩ : Outcome α).verdict = .noMatch
          ↔ admits value = false := by
    intro value mid
    cases admits value <;> simp [matched]
  simp only [demanding, andThen_noMatch_iff, hdemand]

/-- A read gives a value or an error. -/
theorem ofRead_ne_noMatch {read : Except BoundsError (α × Reader)} :
    (ofRead r read).verdict ≠ .noMatch := by
  cases read with
  | ok result => exact nofun
  | error cause => exact nofun

/-- Bytes that fill a slot are there, or passing over them is an error. -/
theorem skipping_noMatch_iff {count : Nat} :
    (o.skipping count).verdict = .noMatch ↔ o.verdict = .noMatch := by
  have hskip : ∀ (value : α) (mid : Reader),
      (if count = 0 then matched value mid
        else ofRead mid ((mid.skip count).map fun next => (value, next))).verdict ≠ .noMatch := by
    intro value mid
    by_cases hcount : count = 0
    · rw [if_pos hcount]
      intro h
      cases h
    · rw [if_neg hcount]
      exact ofRead_ne_noMatch
  rw [skipping, andThen_noMatch_iff]
  exact or_iff_left fun ⟨value, mid, _, hnone⟩ => hskip value mid hnone

/-- So many elements do not match exactly if fewer of them do and the next one does not. -/
theorem repeated_noMatch_iff {total left : Nat} :
    (repeated decode total left r).verdict = .noMatch ↔
      ∃ items mid, Run decode r items mid ∧ items.length < left
        ∧ (decode mid).verdict = .noMatch := by
  simp only [← halts_none_iff, repeated_halts_iff]

/-- The elements up to the end of the data match, none of them at the least, or one of them fails. -/
theorem repeatedToEnd_ne_noMatch : (repeatedToEnd decode r).verdict ≠ .noMatch := by
  induction hsize : r.remaining using Nat.strongRecOn generalizing r with
  | ind size ih =>
    intro h
    by_cases hend : r.atEnd = true
    · rw [repeatedToEnd_of_atEnd hend] at h
      cases h
    cases hverdict : (decode r).verdict with
    | noMatch =>
      rw [repeatedToEnd_of_noMatch hend hverdict] at h
      cases h
    | failed cause =>
      rw [repeatedToEnd_of_failed hend hverdict] at h
      cases h
    | matched value =>
      have hfirst : (decode r).Matches value (decode r).reader := ⟨hverdict, rfl⟩
      by_cases hshorter : (decode r).reader.remaining < r.remaining
      · rw [(repeatedToEnd_of_shorter hfirst hshorter).1, map_noMatch_iff] at h
        exact ih _ (hsize ▸ hshorter) rfl h
      · rw [repeatedToEnd_of_idle hend hfirst (Nat.le_of_not_lt hshorter)] at h
        cases h

end Outcome

namespace Node

variable {scope : Scope} {r : Reader} {element : Node} {length : Length}

/-- An array does not match only where an element behind others does not. -/
theorem exists_of_decode_array_noMatch
    (h : ((array element length).decode scope r).verdict = .noMatch) :
    ∃ items mid, Run (element.decode scope) r items mid
      ∧ (element.decode scope mid).verdict = .noMatch := by
  rw [decode] at h
  cases hresolve : length.resolve scope r.remaining with
  | error cause =>
    rw [hresolve] at h
    cases h
  | ok count? =>
    rw [hresolve] at h
    cases count? with
    | none => exact absurd (Outcome.map_noMatch_iff.mp h) Outcome.repeatedToEnd_ne_noMatch
    | some count =>
      dsimp only at h
      split at h
      · exact absurd (Outcome.map_noMatch_iff.mp h) Outcome.ofRead_ne_noMatch
      · have hitems := Outcome.repeated_noMatch_iff.mp (Outcome.map_noMatch_iff.mp h)
        obtain ⟨items, mid, run, -, hnext⟩ := hitems
        exact ⟨items, mid, run, hnext⟩

/-- Alternatives do not match exactly if none of them does. -/
theorem decodeFirst_noMatch_iff {total index : Nat} {alternatives : List Node} :
    (decodeFirst scope r total index alternatives).verdict = .noMatch ↔
      ∀ node ∈ alternatives, (node.decode scope r).verdict = .noMatch := by
  induction alternatives generalizing index with
  | nil => exact iff_of_true rfl (List.forall_mem_nil _)
  | cons node rest ih =>
    rw [List.forall_mem_cons, decodeFirst]
    cases hverdict : (node.decode scope r).verdict with
    | noMatch => simp [ih]
    | matched value | failed cause => simp

theorem decode_branch_noMatch_iff {alternatives : List Node} :
    ((branch alternatives).decode scope r).verdict = .noMatch ↔
      ∀ node ∈ alternatives, (node.decode scope r).verdict = .noMatch := by
  rw [decode]
  exact decodeFirst_noMatch_iff

/-- Fields do not match exactly if one of them does not behind matches of those before it. -/
theorem decodeFields_noMatch_iff {done : Members} {fields : List (String × Node)} :
    (decodeFields done fields r).verdict = .noMatch ↔
      ∃ before name node behind added mid, fields = before ++ (name, node) :: behind
        ∧ FieldRun done before r added mid
        ∧ (node.decode (some (done ++ added)) mid).verdict = .noMatch := by
  simp only [← Outcome.halts_none_iff, decodeFields_halts_iff]

/-- A struct does not match exactly if one of its fields does not behind matches of those before it. -/
theorem decode_struct_noMatch_iff {fields : List (String × Node)} :
    ((struct fields).decode scope r).verdict = .noMatch ↔
      ∃ before name node behind added mid, fields = before ++ (name, node) :: behind
        ∧ FieldRun [] before r added mid
        ∧ (node.decode (some added) mid).verdict = .noMatch := by
  simp only [decode, Outcome.map_noMatch_iff, decodeFields_noMatch_iff, List.nil_append]

end Node

end ByteRecord
