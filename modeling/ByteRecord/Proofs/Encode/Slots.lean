import ByteRecord.Encode.Plan
import ByteRecord.Proofs.Record.Slots

/-!
# What is written for the slots of a record

A plan without a fault writes what its slots call for, one slot behind the other. The plan for a
record that conforms to its schema has no fault.
-/

namespace ByteRecord

namespace Slot

/-- Something is written for the value in the slot. -/
def Writable (slot : Slot) : Prop := ∃ writes, slot.tag.writes slot.value = .ok writes

/-- What is written for the value in the slot. -/
def octets (slot : Slot) : List UInt8 :=
  match slot.tag.writes slot.value with
  | .ok writes => writes.flatMap Write.octets
  | .error _ => []

end Slot

namespace Plan

/-- The plan writes the values of the given slots and nothing else. -/
structure Covers (plan : Plan) (slots : List Slot) : Prop where
  /-- The bytes are those of the slots. -/
  octets_eq : plan.octets = slots.flatMap Slot.octets
  /-- Every slot is written. -/
  writable : ∀ slot ∈ slots, slot.Writable

variable {first second : Plan} {slots others : List Slot}

/-- One plan after the other has no fault exactly if neither has. -/
theorem fault_append_eq_none_iff :
    (first ++ second).fault = none ↔ first.fault = none ∧ second.fault = none := by
  change (first.append second).fault = none ↔ _
  unfold append
  cases h : first.fault with
  | none => exact (and_iff_right rfl).symm
  | some cause =>
    constructor
    · intro hfault
      cases hfault
    · rintro ⟨hfirst, -⟩
      cases hfirst

theorem octets_append (h : first.fault = none) :
    (first ++ second).octets = first.octets ++ second.octets := by
  change (first.append second).octets = _
  unfold append
  rw [h]
  exact List.flatMap_append

theorem covers_empty : Plan.empty.Covers [] := ⟨rfl, List.forall_mem_nil _⟩

theorem Covers.append (hfirst : first.Covers slots) (hsecond : second.Covers others)
    (h : first.fault = none) : (first ++ second).Covers (slots ++ others) := by
  refine ⟨?_, ?_⟩
  · rw [octets_append h, hfirst.octets_eq, hsecond.octets_eq, List.flatMap_append]
  · intro slot hslot
    rcases List.mem_append.mp hslot with hmem | hmem
    · exact hfirst.writable slot hmem
    · exact hsecond.writable slot hmem

variable {plan : Path → Json → Plan} {path : Path} {index : Nat} {items : List Json}

/-- Plans for items cover the slots of the items. -/
theorem covers_forItems {slots : Json → List Slot}
    (each : ∀ item ∈ items, ∀ path, (plan path item).fault = none →
      (plan path item).Covers (slots item))
    (h : (forItems plan path index items).fault = none) :
    (forItems plan path index items).Covers (items.flatMap slots) := by
  induction items generalizing index with
  | nil => exact covers_empty
  | cons item rest ih =>
    obtain ⟨hitem, heach⟩ := List.forall_mem_cons.mp each
    rw [forItems, fault_append_eq_none_iff] at h
    rw [forItems, List.flatMap_cons]
    exact (hitem _ h.1).append (ih heach h.2) h.1

/-- Behind plans without a fault no item has one. -/
theorem exists_of_fault_forItems (h : (forItems plan path index items).fault = none) :
    ∀ item ∈ items, ∃ path, (plan path item).fault = none := by
  induction items generalizing index with
  | nil => exact List.forall_mem_nil _
  | cons item rest ih =>
    obtain ⟨hitem, hrest⟩ := fault_append_eq_none_iff.mp h
    exact List.forall_mem_cons.mpr ⟨⟨_, hitem⟩, ih hrest⟩

/-- Items without faults have plans without a fault. -/
theorem fault_forItems (each : ∀ item ∈ items, ∀ path, (plan path item).fault = none) :
    (forItems plan path index items).fault = none := by
  induction items generalizing index with
  | nil => rfl
  | cons item rest ih =>
    obtain ⟨hitem, heach⟩ := List.forall_mem_cons.mp each
    rw [forItems, fault_append_eq_none_iff]
    exact ⟨hitem _, ih heach⟩

end Plan

namespace Tag

variable {tag : Tag} {path : Path} {value : Json}

/-- A slot has no fault exactly if its value is written. -/
theorem fault_plan_eq_none_iff :
    (tag.plan path value).fault = none ↔ Slot.Writable ⟨tag, value⟩ := by
  unfold plan Slot.Writable
  cases tag.writes value with
  | ok writes => exact ⟨fun _ => ⟨writes, rfl⟩, fun _ => rfl⟩
  | error cause =>
    constructor
    · intro hfault
      cases hfault
    · rintro ⟨writes, hwrites⟩
      cases hwrites

theorem covers_plan (h : (tag.plan path value).fault = none) :
    (tag.plan path value).Covers [⟨tag, value⟩] := by
  have hwritable := fault_plan_eq_none_iff.mp h
  refine ⟨?_, List.forall_mem_singleton.mpr hwritable⟩
  obtain ⟨writes, hwrites⟩ := hwritable
  rw [List.flatMap_singleton, plan, Slot.octets, hwrites]
  rfl

end Tag

namespace Node

/-- Fields whose plan has no fault are all found, and have no faults either. -/
theorem exists_of_fault_planFields {members : Members} {path : Path}
    {fields : List (String × Node)} (h : (planFields members path fields).fault = none) :
    ∀ field ∈ fields, ∃ value, members.find? field.1 = some value
      ∧ ∃ path, (field.2.plan (some members) path value).fault = none := by
  induction fields with
  | nil => exact List.forall_mem_nil _
  | cons field rest ih =>
    obtain ⟨name, node⟩ := field
    rw [planFields] at h
    cases hfind : members.find? name with
    | none =>
      rw [hfind] at h
      cases h
    | some value =>
      rw [hfind] at h
      obtain ⟨hvalue, hrest⟩ := Plan.fault_append_eq_none_iff.mp h
      exact List.forall_mem_cons.mpr ⟨⟨value, hfind, _, hvalue⟩, ih hrest⟩

/-- A plan without a fault covers the slots of the record. -/
theorem covers_plan {node : Node} {scope : Scope} {path : Path} {value : Json}
    (h : (node.plan scope path value).fault = none) :
    (node.plan scope path value).Covers (node.slots value) := by
  induction node generalizing scope path value with
  | leaf tag =>
    rw [plan] at h ⊢
    exact Tag.covers_plan h
  | array element length ih =>
    cases value with
    | array items =>
      rw [plan] at h ⊢
      cases hmismatch : length.mismatch? scope path items.length with
      | some cause =>
        rw [hmismatch] at h
        cases h
      | none =>
        rw [hmismatch] at h
        exact Plan.covers_forItems (fun item _ path hitem => ih hitem) h
    | _ => cases h
  | branch alternatives ih => cases h
  | struct fields ih =>
    cases value with
    | object members =>
      rw [plan] at h ⊢
      rw [slots]
      induction fields with
      | nil => exact Plan.covers_empty
      | cons field rest ihrest =>
        obtain ⟨name, node⟩ := field
        obtain ⟨hnode, hrest⟩ := List.forall_mem_cons.mp ih
        rw [planFields] at h ⊢
        cases hfind : Members.find? members name with
        | none =>
          rw [hfind] at h
          cases h
        | some value =>
          rw [hfind] at h
          dsimp only at h ⊢
          rw [fieldSlots_cons hfind]
          rw [Plan.fault_append_eq_none_iff] at h
          exact (hnode h.1).append (ihrest hrest h.2) h.1
    | _ => cases h

end Node

end ByteRecord
