import ByteRecord.Proofs.Decode.Inversion
import ByteRecord.Proofs.Length.Scope
import ByteRecord.Proofs.Octets.Text
import ByteRecord.Proofs.Scalar.Words

/-!
# The slots of a record

Without branches, a schema and a record of it determine a row of slots with the value in each. What
is decoded is what the bytes spell slot by slot, so laws about whole records reduce to laws about
single slots. A slot may end in slack: bytes that its value does not decide.
-/

namespace ByteRecord

/-- A slot of a record and the value in it. -/
structure Slot where
  /-- The tag of the slot. -/
  tag : Tag
  /-- The value in the slot. -/
  value : Json

namespace Slot

/-- How many bytes the slot takes. -/
def size : Slot → Nat
  | ⟨.scalar tag, _⟩ => tag.type.size + tag.padding
  | ⟨.string tag, _⟩ => tag.paddedTo.toNat
  | ⟨.cstring tag, .string s⟩ => if tag.paddedTo = 0 then s.length + 1 else tag.paddedTo.toNat
  | ⟨.cstring tag, _⟩ => tag.paddedTo.toNat

/-- How many bytes of the slot its value decides: the bytes of a number, all of a text of fixed
width, and another text with the zero byte behind it, as far as it has room. -/
def held : Slot → Nat
  | ⟨.scalar tag, _⟩ => tag.type.size
  | ⟨.cstring tag, .string s⟩ =>
    if tag.paddedTo = 0 then s.length + 1 else min (s.length + 1) tag.paddedTo.toNat
  | slot => slot.size

/-- Which bytes of the slot are slack. -/
def mask (slot : Slot) : List Bool :=
  List.replicate slot.held false ++ List.replicate (slot.size - slot.held) true

/-- Whether the value is a floating-point number that is no number. -/
def isNaN (slot : Slot) : Bool :=
  match slot.value with
  | .number n => n.isNaN
  | _ => false

theorem held_le_size (slot : Slot) : slot.held ≤ slot.size := by
  obtain ⟨tag, value⟩ := slot
  cases tag with
  | scalar tag => exact Nat.le_add_right _ _
  | string tag => exact Nat.le_refl _
  | cstring tag =>
    cases value with
    | string s =>
      rw [held, size]
      split
      · exact Nat.le_refl _
      · exact Nat.min_le_right _ _
    | _ => exact Nat.le_refl _

theorem length_mask (slot : Slot) : slot.mask.length = slot.size := by
  rw [mask, List.length_append, List.length_replicate, List.length_replicate,
    Nat.add_sub_cancel' slot.held_le_size]

end Slot

/-- How many bytes some slots take together. -/
def slotsSize (slots : List Slot) : Nat := (slots.map Slot.size).sum

/-- Which bytes of a row of slots are slack. -/
def slackMask (slots : List Slot) : List Bool := slots.flatMap Slot.mask

theorem slotsSize_cons (slot : Slot) (slots : List Slot) :
    slotsSize (slot :: slots) = slot.size + slotsSize slots := by
  rw [slotsSize, slotsSize, List.map_cons, List.sum_cons]

/-- The mask has one entry for each byte. -/
theorem length_slackMask (slots : List Slot) : (slackMask slots).length = slotsSize slots := by
  rw [slackMask, slotsSize, List.length_flatMap]
  exact congrArg List.sum (List.map_congr_left fun slot _ => slot.length_mask)

namespace Node

mutual

/-- The slots of a record, in the order of their bytes. -/
def slots : Node → Json → List Slot
  | leaf tag, value => [⟨tag, value⟩]
  | array element _, value =>
    match value with
    | .array items => items.flatMap fun item => slots element item
    | _ => []
  | branch _, _ => []
  | struct fields, value =>
    match value with
    | .object members => fieldSlots members fields
    | _ => []

/-- The slots of the given fields, whose values are looked up among the members. -/
def fieldSlots (members : Members) : List (String × Node) → List Slot
  | [] => []
  | (name, node) :: rest =>
    match members.find? name with
    | none => fieldSlots members rest
    | some value => slots node value ++ fieldSlots members rest

end

theorem fieldSlots_cons {members : Members} {name : String} {node : Node} {value : Json}
    (h : members.find? name = some value) (rest : List (String × Node)) :
    fieldSlots members ((name, node) :: rest) = node.slots value ++ fieldSlots members rest := by
  rw [fieldSlots, h]

/-- The slots of a declared field that is found are among those of the struct. -/
theorem mem_fieldSlots_of_mem {members : Members} {fields : List (String × Node)}
    {field : String × Node} {value : Json} {slot : Slot} (hfield : field ∈ fields)
    (hfind : members.find? field.1 = some value) (h : slot ∈ field.2.slots value) :
    slot ∈ fieldSlots members fields := by
  induction fields with
  | nil => cases hfield
  | cons other rest ih =>
    obtain ⟨name, node⟩ := other
    rcases List.mem_cons.mp hfield with rfl | hrest
    · rw [fieldSlots_cons hfind]
      exact List.mem_append_left _ h
    · rw [fieldSlots]
      split
      · exact ih hrest
      · exact List.mem_append_right _ (ih hrest)

theorem mem_fieldSlots {members : Members} {fields : List (String × Node)} {slot : Slot}
    (h : slot ∈ fieldSlots members fields) :
    ∃ field ∈ fields, ∃ value, members.find? field.1 = some value ∧ slot ∈ field.2.slots value := by
  induction fields with
  | nil => cases h
  | cons field rest ih =>
    obtain ⟨name, node⟩ := field
    cases hfind : members.find? name with
    | none =>
      rw [fieldSlots, hfind] at h
      obtain ⟨other, hother, found⟩ := ih h
      exact ⟨other, List.mem_cons_of_mem _ hother, found⟩
    | some value =>
      rw [fieldSlots_cons hfind] at h
      rcases List.mem_append.mp h with hmem | hmem
      · exact ⟨(name, node), List.mem_cons_self, value, hfind, hmem⟩
      · obtain ⟨other, hother, found⟩ := ih hmem
        exact ⟨other, List.mem_cons_of_mem _ hother, found⟩

end Node

/-- The bytes spell the values of the slots, one slot behind the other. -/
inductive Spelled : List Slot → List UInt8 → Prop
  /-- There are no further slots. -/
  | nil : Spelled [] []
  /-- A slot, and the slots behind it. -/
  | cons {slot : Slot} {slots : List Slot} {part bytes : List UInt8}
      (first : slot.tag.Spells part slot.value) (rest : Spelled slots bytes) :
      Spelled (slot :: slots) (part ++ bytes)

namespace Spelled

variable {first second slots : List Slot} {bytes before behind : List UInt8}

theorem singleton {tag : Tag} {value : Json} (h : tag.Spells bytes value) :
    Spelled [⟨tag, value⟩] bytes := by
  have hrow : Spelled [⟨tag, value⟩] (bytes ++ []) := .cons h .nil
  rwa [List.append_nil] at hrow

theorem append (hfirst : Spelled first before) (hsecond : Spelled second behind) :
    Spelled (first ++ second) (before ++ behind) := by
  induction hfirst with
  | nil => exact hsecond
  | cons slot rest ih =>
    rw [List.cons_append, List.append_assoc]
    exact .cons slot ih

/-- What a row of slots spells splits where the row does. -/
theorem split (h : Spelled (first ++ second) bytes) :
    ∃ before behind, bytes = before ++ behind ∧ Spelled first before ∧ Spelled second behind := by
  induction first generalizing bytes with
  | nil => exact ⟨[], bytes, rfl, .nil, h⟩
  | cons slot first ih =>
    cases h with
    | cons hslot hrest =>
      obtain ⟨before, behind, rfl, hbefore, hbehind⟩ := ih hrest
      exact ⟨_ ++ before, behind, (List.append_assoc _ _ _).symm, .cons hslot hbefore, hbehind⟩

end Spelled

/-- What a slot spells has the size of the slot. -/
theorem Tag.Spells.length_eq {tag : Tag} {bytes : List UInt8} {value : Json}
    (h : tag.Spells bytes value) : bytes.length = Slot.size ⟨tag, value⟩ := by
  cases h with
  | scalar hwidth hpadding hadmits => rw [List.length_append, hwidth, hpadding, Slot.size]
  | string hwidth hadmits => rw [hwidth, Slot.size]
  | padded hbounded hwidth hadmits => rw [hwidth, Slot.size, if_neg hbounded]
  | terminated hunbounded hfree hadmits =>
    rw [List.length_append, Slot.size, if_pos hunbounded, length_fieldText]
    rfl

/-- What a row of slots spells has the size of the row. -/
theorem Spelled.length_eq {slots : List Slot} {bytes : List UInt8} (h : Spelled slots bytes) :
    bytes.length = slotsSize slots := by
  induction h with
  | nil => rfl
  | cons first rest ih => rw [List.length_append, slotsSize_cons, ih, first.length_eq]

end ByteRecord
