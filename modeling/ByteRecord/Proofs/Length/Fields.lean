import ByteRecord.Proofs.Length.Lookup
import ByteRecord.Proofs.Success

/-!
# The fields that a length reads

The list of the fields of a length is what it reads, no more and no less. No more, since it comes to
the same in two structs that agree on these fields; no less, since a single field of the list that has
no number in the scope is enough for the look-up to fail, whatever the terms before it have come to.
-/

namespace ByteRecord

/-- No field has a number where no struct encloses the array. -/
theorem Scope.number_none (name : String) :
    Scope.number none name = .error (.outsideStruct name) := rfl

/-- A field of a struct has no number if it is missing or if its value is none. -/
theorem Scope.exists_number_error_iff {members : Members} {name : String} :
    (∃ cause, Scope.number (some members) name = .error cause)
      ↔ members.find? name = none
        ∨ ∃ value, members.find? name = some value ∧ ∀ n, value ≠ .number n := by
  refine ⟨fun ⟨cause, hcause⟩ => ?_, ?_⟩
  · cases hfind : members.find? name with
    | none => exact Or.inl rfl
    | some value => exact Or.inr ⟨value, rfl, (number_eq_error_of_find? hfind hcause).2⟩
  · rintro (hnone | ⟨value, hfind, hvalue⟩)
    · exact ⟨.undefinedField name, by rw [number, hnone]⟩
    · refine ⟨.notNumeric name, ?_⟩
      rw [number, hfind]
      cases value with
      | number n => exact absurd rfl (hvalue n)
      | _ => rfl

namespace Length

variable {length : Length}

/-- The schema is what keeps a length from being worked out exactly if one of its fields has no
number. -/
theorem exists_schema_error_iff {scope : Scope} :
    (∃ cause, length.evaluate scope = .error (.schema cause))
      ↔ ∃ name ∈ length.fields, ∃ cause, scope.number name = .error cause := by
  refine ⟨fun ⟨cause, h⟩ => ?_, fun ⟨name, hname, cause, hcause⟩ => ?_⟩
  · rcases cases_of_evaluate_error h with ⟨bounds, hbounds⟩ | ⟨name, hname, cause, -, hcause⟩
    · cases hbounds
    · exact ⟨name, hname, cause, hcause⟩
  · obtain ⟨other, hother⟩ := exists_evaluate_error hname hcause
    exact ⟨.lookup other, hother⟩

/-- The list of the fields of a length is what the length reads. Two structs that agree on these fields,
by lacking them or by holding the same values, make it come to the same count, none or error. And the
schema is to blame for a length that is not worked out exactly if the list names a field and there is
no scope, the scope is no struct, or one of the fields is missing in it or is no number. -/
theorem evaluate_reads_fields (length : Length) :
    (∀ members others : Members,
      (∀ name ∈ length.fields, members.find? name = others.find? name) →
        length.evaluate (Json.object members).scope = length.evaluate (Json.object others).scope)
    ∧ ∀ scope : Option Json,
      (∃ cause, length.evaluate (scope.bind Json.scope) = .error (.schema cause))
        ↔ length.fields ≠ []
          ∧ (scope = none
            ∨ (∃ value, scope = some value ∧ ∀ members, value ≠ .object members)
            ∨ ∃ members : Members, scope = some (.object members) ∧ ∃ name ∈ length.fields,
              members.find? name = none
                ∨ ∃ value, members.find? name = some value ∧ ∀ n, value ≠ .number n) := by
  refine ⟨fun members others agree => ?_, fun scope => ?_⟩
  · refine evaluate_congr fun name hname => ?_
    rw [Json.scope, Json.scope, Scope.number, Scope.number, agree name hname]
  · rw [exists_schema_error_iff]
    refine ⟨fun ⟨name, hname, hcause⟩ => ⟨List.ne_nil_of_mem hname, ?_⟩, ?_⟩
    · cases scope with
      | none => exact Or.inl rfl
      | some value =>
        refine Or.inr ?_
        cases value with
        | object members =>
          exact Or.inr ⟨members, rfl, name, hname, Scope.exists_number_error_iff.mp hcause⟩
        | _ => exact Or.inl ⟨_, rfl, nofun⟩
    · rintro ⟨hfields, hscope⟩
      obtain ⟨first, hfirst⟩ := List.exists_mem_of_ne_nil _ hfields
      rcases hscope with rfl | ⟨value, rfl, hvalue⟩ | ⟨members, rfl, name, hname, hlacks⟩
      · exact ⟨first, hfirst, _, Scope.number_none first⟩
      · have hnone : (some value).bind Json.scope = none := by
          cases value with
          | object members => exact absurd rfl (hvalue members)
          | _ => rfl
        rw [hnone]
        exact ⟨first, hfirst, _, Scope.number_none first⟩
      · exact ⟨name, hname, Scope.exists_number_error_iff.mpr hlacks⟩

/-- One divided by a width, and an offset on top: the text of an array length. -/
def shareText : Json := .string "1/width+offset"

/-- The length that is read from this text. -/
def share : Length :=
  .expression [⟨.add, .count 1⟩, ⟨.divide, .field "width"⟩, ⟨.add, .field "offset"⟩]

/-- Dividing by a width of zero gives infinity, and still the text behind it is found to be no
number; a struct that differs in fields of other names only comes to the same. -/
theorem evaluate_reads_fields_share :
    ofJson shareText = .ok share
    ∧ share.evaluate (Json.object [("width", .ofInt64 0), ("offset", .string "2")]).scope
      = share.evaluate (Json.object [("note", .null), ("offset", .string "2"),
          ("width", .ofInt64 0)]).scope
    ∧ ∃ cause, share.evaluate
        ((some (Json.object [("width", .ofInt64 0), ("offset", .string "2")])).bind Json.scope)
          = .error (.schema cause) := by
  obtain ⟨agreeing, lacking⟩ := evaluate_reads_fields share
  refine ⟨eq_ok_of_toOption (by decide +kernel), agreeing _ _ ?_, (lacking _).mpr ⟨by decide, ?_⟩⟩
  · intro name hname
    obtain rfl | rfl : name = "width" ∨ name = "offset" := by
      simpa [share, fields, Operand.field?] using hname
    · rfl
    · rfl
  · have htext : ∀ n, Json.string "2" ≠ .number n := by
      intro n h
      cases h
    exact Or.inr (Or.inr ⟨_, rfl, "offset", by decide, Or.inr ⟨.string "2", rfl, htext⟩⟩)

end Length

end ByteRecord
