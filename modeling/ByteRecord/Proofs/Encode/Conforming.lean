import ByteRecord.Proofs.Encode.Slots
import ByteRecord.Proofs.Record.Conformance

/-!
# Encoding conforming records

A record that conforms to its schema is encoded without a fault: its values are taken by their slots,
and its arrays have the sizes that the encoder asks for.
-/

namespace ByteRecord

/-- A number that a slot may hold is taken by the slot. -/
theorem ScalarType.Holds.exists_scalar {type : ScalarType} {n : Number} (h : type.Holds n) :
    ∃ scalar, type.ofJson (.number n) = .ok scalar := by
  cases type
  case float32 => exact ⟨_, rfl⟩
  case float64 => exact ⟨_, rfl⟩
  all_goals
    obtain ⟨i, hi, hleast, hbound⟩ := h
    obtain ⟨k, hk, -⟩ := ofJson_of_integer rfl hi hleast hbound
    exact ⟨_, hk⟩

/-- A field text is taken by its slot. -/
theorem IsFieldText.fieldBytes_eq_ok {s : String} (h : IsFieldText s) :
    ∃ bytes, s = fieldText bytes ∧ (Json.string s).fieldBytes = .ok bytes := by
  obtain ⟨bytes, rfl⟩ := h.exists_bytes
  refine ⟨bytes, rfl, ?_⟩
  rw [Json.fieldBytes, fieldBytes?_fieldText]

/-- A value that may stand in a slot is written. -/
theorem Tag.Holds.writable {tag : Tag} {value : Json} (h : tag.Holds value) :
    Slot.Writable ⟨tag, value⟩ := by
  cases h with
  | scalar hrange hdemand =>
    obtain ⟨scalar, hscalar⟩ := hrange.exists_scalar
    exact ⟨_, congrArg (Except.map _) hscalar⟩
  | string hchars hlength hdemand =>
    obtain ⟨bytes, -, hbytes⟩ := hchars.fieldBytes_eq_ok
    exact ⟨_, congrArg (Except.map _) hbytes⟩
  | cstring hchars hfree hlength hdemand =>
    obtain ⟨bytes, -, hbytes⟩ := hchars.fieldBytes_eq_ok
    exact ⟨_, congrArg (Except.map _) hbytes⟩

namespace Node

/-- Fields that are found and have no faults have a plan without a fault. -/
theorem fault_planFields {members : Members} {path : Path} {fields : List (String × Node)}
    (each : ∀ field ∈ fields, ∃ value, members.find? field.1 = some value
      ∧ ∀ path, (field.2.plan (some members) path value).fault = none) :
    (planFields members path fields).fault = none := by
  induction fields with
  | nil => rfl
  | cons field rest ih =>
    obtain ⟨name, node⟩ := field
    obtain ⟨⟨value, hfind, hvalue⟩, heach⟩ := List.forall_mem_cons.mp each
    rw [planFields, hfind]
    exact Plan.fault_append_eq_none_iff.mpr ⟨hvalue _, ih heach⟩

/-- The plan for a conforming record has no fault. -/
theorem Conforms.fault_plan {node : Node} (branchFree : node.BranchFree)
    (distinct : node.DistinctNames) {scope : Scope} {path : Path} {value : Json}
    (h : node.Conforms scope value) : (node.plan scope path value).fault = none := by
  induction node generalizing scope path value with
  | leaf tag =>
    cases h with
    | leaf hholds =>
      rw [plan]
      exact Tag.fault_plan_eq_none_iff.mpr hholds.writable
  | array element length ih =>
    cases h with
    | array hsize heach =>
      rename_i items
      have hmismatch : length.mismatch? scope path items.length = none := by
        unfold Length.mismatch?
        rcases hsize with hsize | hsize
        · rw [hsize]
        · rw [hsize]
          exact if_pos rfl
      rw [plan, hmismatch]
      refine Plan.fault_forItems fun item hitem path => ?_
      exact ih branchFree.element distinct.element (heach item hitem)
  | branch alternatives ih => exact absurd branchFree BranchFree.not_branch
  | struct fields ih =>
    obtain ⟨members, rfl, -, hfields⟩ := h.forall_fields distinct.here
    rw [plan]
    refine fault_planFields ?_
    intro field hfield
    obtain ⟨value, hfind, hvalue⟩ := hfields field hfield
    refine ⟨value, hfind, fun path => ?_⟩
    exact ih field hfield (branchFree.field hfield) (distinct.field hfield) hvalue

end Node

end ByteRecord
