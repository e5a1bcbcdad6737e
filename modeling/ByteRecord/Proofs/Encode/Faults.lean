import ByteRecord.Proofs.Encode.Writing
import ByteRecord.Proofs.Length.Lookup

/-!
# Where encoding stops

The fault of a plan is that of its first part that has one. Encoding ends in the fault of its plan,
unless a write before it finds no room; in a growing buffer every write finds room as long as the
bytes keep within two to the 63.
-/

namespace ByteRecord

variable {path : Path} {value : Json} {cause : Error}

namespace Plan

variable {first second : Plan}

theorem append_of_fault (h : first.fault = some cause) :
    first ++ second = ⟨first.writes, some cause⟩ := by
  change first.append second = _
  rw [append, h]

theorem append_of_fault_eq_none (h : first.fault = none) :
    first ++ second = ⟨first.writes ++ second.writes, second.fault⟩ := by
  change first.append second = _
  rw [append, h]

/-- The fault of two plans is that of the first, or that of the second behind a first without. -/
theorem fault_append_eq_some_iff :
    (first ++ second).fault = some cause ↔
      first.fault = some cause ∨ first.fault = none ∧ second.fault = some cause := by
  cases h : first.fault with
  | none => simp [append_of_fault_eq_none h]
  | some other => simp [append_of_fault h]

/-- The fault of numbered items is that of the first of them that has one. -/
theorem fault_forItems_eq_some_iff {plan : Path → Json → Plan} {index : Nat}
    {items : List Json} {cause : Error} :
    (forItems plan path index items).fault = some cause ↔
      ∃ before item behind, items = before ++ item :: behind
        ∧ (forItems plan path index before).fault = none
        ∧ (plan (path.item (index + before.length)) item).fault = some cause := by
  induction items generalizing index with
  | nil => simp [forItems, empty]
  | cons item rest ih =>
    rw [forItems, fault_append_eq_some_iff, ih]
    constructor
    · rintro (hfirst | ⟨hnone, before, later, behind, rfl, hbefore, hlater⟩)
      · exact ⟨[], item, rest, rfl, rfl, hfirst⟩
      · refine ⟨item :: before, later, behind, rfl, ?_, ?_⟩
        · rw [forItems, fault_append_eq_none_iff]
          exact ⟨hnone, hbefore⟩
        · rwa [List.length_cons, ← Nat.add_assoc, Nat.add_right_comm]
    · rintro ⟨before, later, behind, hitems, hbefore, hlater⟩
      cases before with
      | nil =>
        injection hitems with hitem
        exact Or.inl (hitem ▸ hlater)
      | cons first before =>
        injection hitems with hitem hrest
        subst hitem
        rw [forItems, fault_append_eq_none_iff] at hbefore
        refine Or.inr ⟨hbefore.1, before, later, behind, hrest, hbefore.2, ?_⟩
        rwa [List.length_cons, ← Nat.add_assoc, Nat.add_right_comm] at hlater

end Plan

/-- Nothing is planned for a value that cannot be written, and the record is at fault, at the place of
the slot. -/
theorem Tag.plan_of_not_writable {tag : Tag} (h : ¬ Slot.Writable ⟨tag, value⟩) (path : Path) :
    ∃ error, tag.plan path value = .failing (.record path error) := by
  unfold plan
  cases hwrites : tag.writes value with
  | ok writes => exact absurd ⟨writes, hwrites⟩ h
  | error error => exact ⟨error, rfl⟩

/-- The fault of a slot is one of the record, at the place of the slot. -/
theorem Tag.exists_of_fault_plan {tag : Tag} (h : (tag.plan path value).fault = some cause) :
    ∃ error, cause = .record path error := by
  have hfault : (tag.plan path value).fault ≠ none := h ▸ Option.some_ne_none cause
  obtain ⟨error, hplan⟩ := plan_of_not_writable (mt fault_plan_eq_none_iff.mpr hfault) path
  rw [hplan] at h
  exact ⟨error, (Option.some.inj h).symm⟩

/-- An array does not have its length because of the record, or because a field that the length
reads has no number. -/
theorem Length.cases_of_mismatch {length : Length} {scope : Scope} {size : Nat}
    (h : length.mismatch? scope path size = some cause) :
    (∃ error, cause = .record path error)
      ∨ ∃ name ∈ length.fields, ∃ lookup, cause = .schema (.lookup lookup)
          ∧ scope.number name = .error lookup := by
  unfold mismatch? at h
  cases hcount : length.evaluate scope with
  | error error =>
    rw [hcount] at h
    rcases cases_of_evaluate_error hcount with ⟨bounds, rfl⟩ | ⟨name, hname, lookup, rfl, hnumber⟩
    · exact Or.inl ⟨_, (Option.some.inj h).symm⟩
    · exact Or.inr ⟨name, hname, lookup, (Option.some.inj h).symm, hnumber⟩
  | ok count? =>
    rw [hcount] at h
    cases count? with
    | none => cases h
    | some count =>
      dsimp only at h
      split at h
      · cases h
      · exact Or.inl ⟨_, (Option.some.inj h).symm⟩

namespace Node

variable {node : Node} {members : Members} {fields : List (String × Node)}

/-- The fault of the fields of a struct is that of the first of them that has one: it is missing, or
its value has a fault. -/
theorem fault_planFields_eq_some_iff :
    (planFields members path fields).fault = some cause ↔
      ∃ before name node behind, fields = before ++ (name, node) :: behind
        ∧ (planFields members path before).fault = none
        ∧ (members.find? name = none ∧ cause = .record (path.field name) .missingField
          ∨ ∃ value, members.find? name = some value
            ∧ (node.plan (some members) (path.field name) value).fault = some cause) := by
  induction fields with
  | nil => simp [planFields, Plan.empty]
  | cons field rest ih =>
    obtain ⟨name, node⟩ := field
    constructor
    · intro h
      rw [planFields] at h
      cases hfind : members.find? name with
      | none =>
        rw [hfind] at h
        exact ⟨[], name, node, rest, rfl, rfl, Or.inl ⟨hfind, (Option.some.inj h).symm⟩⟩
      | some value =>
        simp only [hfind, Plan.fault_append_eq_some_iff] at h
        rcases h with hfirst | ⟨hnone, hrest⟩
        · exact ⟨[], name, node, rest, rfl, rfl, Or.inr ⟨value, hfind, hfirst⟩⟩
        · obtain ⟨before, later, found, behind, rfl, hbefore, hfault⟩ := ih.mp hrest
          refine ⟨(name, node) :: before, later, found, behind, rfl, ?_, hfault⟩
          simp only [planFields, hfind, Plan.fault_append_eq_none_iff]
          exact ⟨hnone, hbefore⟩
    · rintro ⟨before, later, found, behind, hfields, hbefore, hfault⟩
      cases before with
      | nil =>
        injection hfields with hfield
        cases hfield
        rw [planFields]
        rcases hfault with ⟨hfind, rfl⟩ | ⟨value, hfind, hvalue⟩
        · rw [hfind]
          rfl
        · simp only [hfind, Plan.fault_append_eq_some_iff]
          exact Or.inl hvalue
      | cons first before =>
        injection hfields with hfield hrest
        subst hfield
        rw [planFields] at hbefore ⊢
        cases hfind : members.find? name with
        | none =>
          rw [hfind] at hbefore
          cases hbefore
        | some value =>
          simp only [hfind, Plan.fault_append_eq_none_iff] at hbefore
          simp only [Plan.fault_append_eq_some_iff]
          exact Or.inr ⟨hbefore.1, ih.mpr ⟨before, later, found, behind, hrest, hbefore.2, hfault⟩⟩

/-- A value that cannot be written leaves the cursor as it is. -/
theorem encodeAt_of_not_writable {tag : Tag} (h : ¬ Slot.Writable ⟨tag, value⟩) (path : Path)
    (c : Cursor) :
    ∃ error, (leaf tag).encodeAt path value c = ⟨.error (.record path error), c, []⟩ := by
  obtain ⟨error, hplan⟩ := Tag.plan_of_not_writable h path
  refine ⟨error, ?_⟩
  rw [encodeAt, plan, hplan]
  rfl

/-- Encoding ends for want of room or in the fault of the plan. -/
theorem cases_of_encodeAt_error {c : Cursor}
    (h : (node.encodeAt path value c).result = .error cause) :
    (∃ capacity, cause = .capacity capacity) ∨ (node.plan none path value).fault = some cause := by
  rw [encodeAt, Cursor.on_execute] at h
  cases hwrites : (Cursor.writeAll (node.plan none path value).writes).on c with
  | mk result last =>
    rw [hwrites] at h
    cases result with
    | error full => exact Or.inl ⟨full, (Except.error.inj h).symm⟩
    | ok =>
      dsimp only at h
      rw [Plan.outcome] at h
      cases hfault : (node.plan none path value).fault with
      | none => simp [hfault] at h
      | some other =>
        simp only [hfault, Except.error.injEq] at h
        exact Or.inr (congrArg some h)

/-- A record whose plan has a fault is not encoded, if what is written before it keeps within two
to the 63 bytes. -/
theorem encode_eq_error {record : Json} (hfault : (node.plan none .root record).fault = some cause)
    (hsize : (node.plan none .root record).octets.length ≤ signedBound) (capacity : Nat)
    (order : Endian) : (node.encode record capacity order).1 = .error cause := by
  obtain ⟨last, -, hexecute⟩ := Cursor.exists_execute_empty hsize capacity order
  rw [encode, encodeAt, hexecute, Plan.outcome, hfault]
  rfl

end Node

end ByteRecord
