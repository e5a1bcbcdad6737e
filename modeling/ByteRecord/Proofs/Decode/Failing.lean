import ByteRecord.Decode.Record
import ByteRecord.Proofs.Decode.Halting

/-!
# What fails

`Outcome.Fails` says that an outcome is an error, with its cause. An error of a whole is the error
of the first part that has one: every part before it matches, or is an alternative that does not. A
slot fails for no other reason than bytes that are not there, so every other error of a record comes
from the length of an array.
-/

namespace ByteRecord

namespace Outcome

variable {α β : Type}

/-- The outcome is an error with the given cause. -/
def Fails (o : Outcome α) (cause : Error) : Prop := o.verdict = .failed cause

variable {o : Outcome α} {value : α} {r : Reader} {cause : Error}

theorem halts_some_iff : o.Halts (some cause) ↔ o.Fails cause := by
  rw [Halts, Fails]
  cases o.verdict <;> simp [eq_comm]

@[simp] theorem not_matched_fails : ¬ (matched value r).Fails cause := by
  simp [Fails, matched]

@[simp] theorem failed_fails_iff {other : Error} :
    (failed other r : Outcome α).Fails cause ↔ other = cause := by
  simp [Fails, failed]

/-- A sequence fails if its first part does, or if that matches and then the second fails. -/
theorem andThen_fails_iff {f : α → Reader → Outcome β} :
    (o.andThen f).Fails cause ↔
      o.Fails cause ∨ ∃ value mid, o.Matches value mid ∧ (f value mid).Fails cause := by
  simp only [← halts_some_iff, andThen_halts_iff]

@[simp] theorem map_fails_iff {f : α → β} : (o.map f).Fails cause ↔ o.Fails cause := by
  rw [← halts_some_iff, map_halts_iff, halts_some_iff]

/-- Reporting an event changes no error. -/
@[simp] theorem noting_fails_iff {event : Event} :
    (o.noting event).Fails cause ↔ o.Fails cause := by
  rw [← halts_some_iff, noting_halts_iff, halts_some_iff]

/-- A demand that is not met is no error. -/
@[simp] theorem demanding_fails_iff {admits : α → Bool} {event : α → Event} :
    (o.demanding admits event).Fails cause ↔ o.Fails cause := by
  have hdemand : ∀ value mid,
      ¬ (if admits value then matched value mid
        else ⟨.noMatch, mid, [event value]⟩).Fails cause := by
    intro value mid
    cases admits value <;> simp [Fails, matched]
  simp [demanding, andThen_fails_iff, hdemand]

/-- A read fails only for want of bytes. -/
theorem ofRead_fails_iff {read : Except BoundsError (α × Reader)} :
    (ofRead r read).Fails cause ↔ ∃ bounds, read = .error bounds ∧ cause = .bounds bounds := by
  cases read with
  | error bounds => simp [ofRead, eq_comm]
  | ok result => simp [ofRead]

/-- Passing over the bytes behind a value fails only for want of bytes. -/
theorem skipping_fails_iff {count : Nat} :
    (o.skipping count).Fails cause ↔
      o.Fails cause ∨ ∃ value mid bounds, o.Matches value mid ∧ count ≠ 0
        ∧ mid.skip count = .error bounds ∧ cause = .bounds bounds := by
  have hskip : ∀ (value : α) (mid : Reader),
      (if count = 0 then matched value mid
        else ofRead mid ((mid.skip count).map fun next => (value, next))).Fails cause
      ↔ ∃ bounds, count ≠ 0 ∧ mid.skip count = .error bounds ∧ cause = .bounds bounds := by
    intro value mid
    by_cases hcount : count = 0
    · simp [hcount]
    · cases mid.skip count <;> simp [hcount, ofRead, Except.map, eq_comm]
  simp only [skipping, andThen_fails_iff, hskip, exists_and_left]

variable {decode : Reader → Outcome Json}

/-- So many elements fail exactly if fewer of them match and the next one fails. -/
theorem repeated_fails_iff {total left : Nat} :
    (repeated decode total left r).Fails cause ↔
      ∃ items mid, Run decode r items mid ∧ items.length < left ∧ (decode mid).Fails cause := by
  simp only [← halts_some_iff, repeated_halts_iff]

/-- Where the elements up to the end of the data fail, some of them match and the next one fails. -/
theorem exists_of_repeatedToEnd_fails (h : (repeatedToEnd decode r).Fails cause) :
    ∃ items mid, Run decode r items mid ∧ (decode mid).Fails cause := by
  induction hsize : r.remaining using Nat.strongRecOn generalizing r with
  | ind size ih =>
    by_cases hend : r.atEnd = true
    · rw [repeatedToEnd_of_atEnd hend] at h
      exact absurd h not_matched_fails
    cases hverdict : (decode r).verdict with
    | noMatch =>
      rw [repeatedToEnd_of_noMatch hend hverdict] at h
      cases h
    | failed other =>
      rw [repeatedToEnd_of_failed hend hverdict] at h
      cases h
      exact ⟨[], r, .nil, hverdict⟩
    | matched value =>
      have hfirst : (decode r).Matches value (decode r).reader := ⟨hverdict, rfl⟩
      by_cases hshorter : (decode r).reader.remaining < r.remaining
      · rw [Fails, (repeatedToEnd_of_shorter hfirst hshorter).1] at h
        obtain ⟨items, mid, run, hnext⟩ := ih _ (hsize ▸ hshorter) (map_fails_iff.mp h) rfl
        exact ⟨value :: items, mid, .cons hfirst run, hnext⟩
      · rw [repeatedToEnd_of_idle hend hfirst (Nat.le_of_not_lt hshorter)] at h
        cases h

end Outcome

variable {r : Reader} {cause : Error}

theorem ScalarTag.bounds_of_decode_fails {tag : ScalarTag} (h : (tag.decode r).Fails cause) :
    ∃ bounds, cause = .bounds bounds := by
  simp only [ScalarTag.decode, Outcome.demanding_fails_iff, Outcome.skipping_fails_iff,
    Outcome.map_fails_iff, Outcome.ofRead_fails_iff] at h
  rcases h with ⟨bounds, -, h⟩ | ⟨-, -, bounds, -, -, -, h⟩
  · exact ⟨bounds, h⟩
  · exact ⟨bounds, h⟩

/-- A slot fails only for want of bytes. -/
theorem Tag.bounds_of_decode_fails {tag : Tag} (h : (tag.decode r).Fails cause) :
    ∃ bounds, cause = .bounds bounds := by
  cases tag with
  | scalar tag => exact ScalarTag.bounds_of_decode_fails (Outcome.map_fails_iff.mp h)
  | string tag =>
    simp only [Tag.decode, Outcome.map_fails_iff, Outcome.demanding_fails_iff,
      Outcome.ofRead_fails_iff] at h
    obtain ⟨bounds, -, h⟩ := h
    exact ⟨bounds, h⟩
  | cstring tag =>
    simp only [Tag.decode, Outcome.map_fails_iff, Outcome.demanding_fails_iff,
      Outcome.ofRead_fails_iff] at h
    obtain ⟨bounds, -, h⟩ := h
    exact ⟨bounds, h⟩

namespace Node

variable {scope : Scope} {element : Node} {length : Length}

/-- An array fails over its length, for want of bytes, or where an element behind others fails. -/
theorem cases_of_decode_array_fails (h : ((array element length).decode scope r).Fails cause) :
    length.resolve scope r.remaining = .error cause ∨ (∃ bounds, cause = .bounds bounds)
      ∨ ∃ items mid, Run (element.decode scope) r items mid
          ∧ (element.decode scope mid).Fails cause := by
  rw [decode] at h
  cases hresolve : length.resolve scope r.remaining with
  | error other =>
    rw [hresolve] at h
    exact Or.inl (congrArg Except.error (Outcome.failed_fails_iff.mp h))
  | ok count? =>
    rw [hresolve] at h
    cases count? with
    | none =>
      have hitems := Outcome.map_fails_iff.mp h
      exact Or.inr (Or.inr (Outcome.exists_of_repeatedToEnd_fails hitems))
    | some count =>
      dsimp only at h
      split at h
      · obtain ⟨bounds, -, hcause⟩ := Outcome.ofRead_fails_iff.mp (Outcome.map_fails_iff.mp h)
        exact Or.inr (Or.inl ⟨bounds, hcause⟩)
      · have hitems := Outcome.repeated_fails_iff.mp (Outcome.map_fails_iff.mp h)
        obtain ⟨items, mid, run, -, hnext⟩ := hitems
        exact Or.inr (Or.inr ⟨items, mid, run, hnext⟩)

/-- A branch fails over its first alternative, or if that does not match and the others fail. -/
theorem decodeFirst_cons_fails_iff {total index : Nat} {node : Node} {rest : List Node} :
    (decodeFirst scope r total index (node :: rest)).Fails cause ↔
      (node.decode scope r).Fails cause
        ∨ (node.decode scope r).verdict = .noMatch
          ∧ (decodeFirst scope r total (index + 1) rest).Fails cause := by
  rw [decodeFirst]
  cases hverdict : (node.decode scope r).verdict <;> simp [Outcome.Fails, hverdict]

/-- A branch fails exactly if an alternative fails and none before it matches or fails. -/
theorem decodeFirst_fails_iff {total index : Nat} {alternatives : List Node} :
    (decodeFirst scope r total index alternatives).Fails cause ↔
      ∃ before node behind, alternatives = before ++ node :: behind
        ∧ (∀ other ∈ before, (other.decode scope r).verdict = .noMatch)
        ∧ (node.decode scope r).Fails cause := by
  induction alternatives generalizing index with
  | nil => simp [decodeFirst, Outcome.Fails]
  | cons node rest ih =>
    rw [decodeFirst_cons_fails_iff, ih]
    constructor
    · rintro (hfirst | ⟨hnone, before, found, behind, rfl, hbefore, hfound⟩)
      · exact ⟨[], node, rest, rfl, List.forall_mem_nil _, hfirst⟩
      · exact ⟨node :: before, found, behind, rfl, List.forall_mem_cons.mpr ⟨hnone, hbefore⟩,
          hfound⟩
    · rintro ⟨before, found, behind, hlist, hbefore, hfound⟩
      cases before with
      | nil =>
        injection hlist with hnode
        exact Or.inl (hnode ▸ hfound)
      | cons first before =>
        injection hlist with hnode hrest
        obtain ⟨hnone, hlater⟩ := List.forall_mem_cons.mp hbefore
        exact Or.inr ⟨hnode ▸ hnone, before, found, behind, hrest, hlater, hfound⟩

/-- Fields fail exactly if one of them fails behind matches of those before it. -/
theorem decodeFields_fails_iff {done : Members} {fields : List (String × Node)} :
    (decodeFields done fields r).Fails cause ↔
      ∃ before name node behind added mid, fields = before ++ (name, node) :: behind
        ∧ FieldRun done before r added mid
        ∧ (node.decode (some (done ++ added)) mid).Fails cause := by
  simp only [← Outcome.halts_some_iff, decodeFields_halts_iff]

/-- A struct fails exactly if one of its fields fails behind matches of those before it. -/
theorem decode_struct_fails_iff {fields : List (String × Node)} :
    ((struct fields).decode scope r).Fails cause ↔
      ∃ before name node behind added mid, fields = before ++ (name, node) :: behind
        ∧ FieldRun [] before r added mid ∧ (node.decode (some added) mid).Fails cause := by
  simp only [decode, Outcome.map_fails_iff, decodeFields_fails_iff, List.nil_append]

/-- No record is decoded from beyond the bytes, or where its schema fails. -/
theorem decodeRecord_eq_error_iff {node : Node} {options : DecodeOptions} {bytes : List UInt8} :
    (node.decodeRecord options bytes).1 = .error cause ↔
      (bytes.length < options.offset
        ∧ cause = .bounds (.decodeOffset options.offset bytes.length))
      ∨ (options.offset ≤ bytes.length
        ∧ (node.decode none ((Reader.ofBytes bytes).advance options.offset)).Fails cause) := by
  unfold decodeRecord Outcome.Fails
  by_cases hoffset : bytes.length < options.offset
  · simp [hoffset, Nat.not_le.mpr hoffset, eq_comm]
  · have hle : options.offset ≤ bytes.length := Nat.le_of_not_lt hoffset
    cases hverdict : (node.decode none ((Reader.ofBytes bytes).advance options.offset)).verdict with
    | failed other => simp [hoffset, hle, hverdict]
    | noMatch => simp [hoffset, hverdict]
    | matched value =>
      simp only [hoffset, hverdict, if_false]
      split <;> simp

end Node

end ByteRecord
