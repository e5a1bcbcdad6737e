import ByteRecord.Proofs.Decode.Inversion
import ByteRecord.Proofs.Length.Arithmetic
import ByteRecord.Proofs.Length.Scope

/-!
# Arrays over the rest of the data

An array over the rest of the data is the longest run of its element in which every match takes
bytes. An array of as many items as it has is the same array, although its elements may be read in
one go and never in more.
-/

namespace ByteRecord

namespace Node

variable {scope : Scope} {element : Node} {value : Json} {values : List Json} {r next : Reader}

/-- An array over the rest of the data matches exactly if its items are a climb of its element to a
place where no further one is taken. -/
theorem decode_remainder_matches_iff :
    ((array element .remainder).decode scope r).Matches value next ↔
      ∃ values, value = .array values ∧ Climb (element.decode scope) r values next
        ∧ Stops (element.decode scope) next := by
  rw [decode]
  change (Outcome.map _ _).Matches value next ↔ _
  rw [Outcome.map_matches_iff]
  constructor
  · rintro ⟨values, hvalues, rfl⟩
    have hclimb := (Outcome.repeatedToEnd_matches_iff (element.decode_goesForward scope)).mp hvalues
    exact ⟨values, rfl, hclimb⟩
  · rintro ⟨values, rfl, hclimb⟩
    have hforward := element.decode_goesForward scope
    exact ⟨values, (Outcome.repeatedToEnd_matches_iff hforward).mpr hclimb, rfl⟩

/-- So many items match one behind the other exactly if they are the array of that literal length. -/
theorem decode_literal_matches_iff (small : values.length ≤ integerBound) :
    ((array element (.literal (Int64.ofNat values.length))).decode scope r).Matches
        (.array values) next ↔ Run (element.decode scope) r values next := by
  have hcount : (Int64.ofNat values.length).toInt = values.length := by
    rw [integerBound] at small
    refine Int64.toInt_ofNat_of_lt ?_
    omega
  have hsign : ¬ Int64.ofNat values.length < 0 := by
    rw [Int64.lt_iff_toInt_lt, hcount, Int64.toInt_zero]
    omega
  have hresolve : (Length.literal (Int64.ofNat values.length)).resolve scope r.remaining
      = .ok (some values.length) := by
    have hliteral := Length.evaluate_literal hsign (by omega) scope
    rw [hcount, Int.toNat_natCast] at hliteral
    exact Length.resolve_of_evaluate hliteral
  rw [decode_counted_matches_iff hresolve]
  constructor
  · rintro ⟨items, hitems, run, -⟩
    obtain rfl : values = items := Json.array.inj hitems
    exact run
  · intro run
    exact ⟨values, rfl, run, rfl⟩

/-- An array over the rest of the data is the longest run of its element in which every match takes
bytes, and the array of so many elements is the same up to the same place. -/
theorem decode_remainder (small : r.size ≤ integerBound) :
    ((array element .remainder).decode scope r).Matches value next ↔
      ∃ values, value = .array values ∧ Climb (element.decode scope) r values next
        ∧ Stops (element.decode scope) next
        ∧ ((array element (.literal (Int64.ofNat values.length))).decode scope r).Matches
            value next := by
  rw [decode_remainder_matches_iff]
  constructor
  · rintro ⟨values, rfl, climb, stops⟩
    have hlength := climb.length_le_remaining (element.decode_goesForward scope)
    have hsize : values.length ≤ integerBound := by
      rw [Reader.size] at small
      omega
    exact ⟨values, rfl, climb, stops, (decode_literal_matches_iff hsize).mpr climb.run⟩
  · rintro ⟨values, hvalue, climb, stops, -⟩
    exact ⟨values, hvalue, climb, stops⟩

/-- A number in front of a zero byte. -/
def endedNode : Node :=
  struct [("n", leaf (.scalar ⟨.uint8, .big, 0, none⟩)),
    ("end", leaf (.scalar ⟨.uint8, .big, 0, some ⟨.integer 0, false⟩⟩))]

/-- Such a number in a record. -/
def endedRecord (n : UInt64) : Json :=
  .object [("n", .number (.unsigned n)), ("end", .number (.unsigned 0))]

/-- Two such numbers are taken. The third is not, together with the byte in front of the mismatch. -/
theorem decode_remainder_ended :
    ((array endedNode .remainder).decode none ⟨0, [7, 0, 8, 0, 9, 1]⟩).Matches
        (.array [endedRecord 7, endedRecord 8]) ⟨4, [9, 1]⟩
      ∧ ((array endedNode (.literal 2)).decode none ⟨0, [7, 0, 8, 0, 9, 1]⟩).Matches
        (.array [endedRecord 7, endedRecord 8]) ⟨4, [9, 1]⟩ := by
  have hfirst : (endedNode.decode none ⟨0, [7, 0, 8, 0, 9, 1]⟩).Matches (endedRecord 7)
      ⟨2, [8, 0, 9, 1]⟩ := ⟨rfl, rfl⟩
  have hsecond : (endedNode.decode none ⟨2, [8, 0, 9, 1]⟩).Matches (endedRecord 8)
      ⟨4, [9, 1]⟩ := ⟨rfl, rfl⟩
  have hclimb := Climb.cons hfirst (by decide) (.cons hsecond (by decide) .nil)
  have hstops : Stops (endedNode.decode none) ⟨4, [9, 1]⟩ := Or.inr (Or.inl rfl)
  have hremainder := decode_remainder_matches_iff.mpr ⟨_, rfl, hclimb, hstops⟩
  obtain ⟨values, hvalues, -, -, hcounted⟩ := (decode_remainder (by decide)).mp hremainder
  obtain rfl := Json.array.inj hvalues
  exact ⟨hremainder, hcounted⟩

end Node

end ByteRecord
