import ByteRecord.Proofs.Encode.Written
import ByteRecord.Proofs.Record.Conformance

/-!
# What the bytes keep of a record

Encoding may lose something: an integer is reduced to its slot, a floating-point number narrowed and
a text cut or filled. `Node.kept` is the record that is left, which is what decoding can find. A slot
spells what is kept of its value, except that a text without a width must not hold a zero byte: the
first one would end it.
-/

namespace ByteRecord

/-- The value that the bytes of a slot spell, without regard to what is demanded of it. -/
def Tag.spelled (bytes : List UInt8) : Tag → Json
  | scalar tag => .number (tag.type.ofOctets tag.order (bytes.take tag.type.size)).toNumber
  | string _ => .string (fieldText bytes)
  | cstring _ => .string (fieldText (Reader.untilZero bytes))

namespace Slot

/-- What is left of the value in the slot when it is written. -/
def kept (slot : Slot) : Json := slot.tag.spelled slot.octets

/-- The zero byte behind a text without a width is the first one. -/
def Ends (slot : Slot) : Prop :=
  match slot with
  | ⟨.cstring tag, .string s⟩ => tag.paddedTo = 0 → '\x00' ∉ s.toList
  | _ => True

end Slot

namespace Node

mutual

/-- What is left of a record when it is written. Members that are not declared are not. -/
def kept : Node → Json → Json
  | leaf tag, value => Slot.kept ⟨tag, value⟩
  | array element _, value =>
    match value with
    | .array items => .array (items.map fun item => kept element item)
    | value => value
  | branch _, value => value
  | struct fields, value =>
    match value with
    | .object members => .object (keptFields members fields)
    | value => value

/-- What is left of the declared fields, in the order of their declaration. -/
def keptFields (members : Members) : List (String × Node) → Members
  | [] => []
  | (name, node) :: rest =>
    match members.find? name with
    | none => keptFields members rest
    | some value => (name, kept node value) :: keptFields members rest

end

end Node

namespace Slot

variable {slot : Slot} {bytes : List UInt8}

/-- The text that is left of a text without a width is what stands before the first zero byte. -/
theorem untilZero_octets_terminatedText (text : List UInt8) :
    Reader.untilZero (Write.terminatedText text 0).octets = Reader.untilZero text := by
  have hoctets : (Write.terminatedText text 0).octets = text ++ [0] := rfl
  rw [hoctets]
  rcases Reader.untilZero_cases text with ⟨hfree, hself⟩ | ⟨behind, hbehind⟩
  · rw [Reader.untilZero_append_zero hfree, hself]
  · have hfree := Reader.zero_notMem_untilZero text
    generalize Reader.untilZero text = front at hbehind hfree ⊢
    rw [hbehind, List.append_assoc, List.cons_append, Reader.untilZero_append_zero hfree]

/-- What is written for a slot spells what is kept, if that may stand in the slot. -/
theorem Written.spells (h : slot.Written bytes) (typed : slot.tag.WellTyped) (ends : slot.Ends)
    (holds : slot.tag.Holds (slot.tag.spelled bytes)) :
    slot.tag.Spells bytes (slot.tag.spelled bytes) := by
  cases h with
  | scalar taken =>
    rename_i tag value scalar
    have hwidth : (tag.type.toOctets tag.order scalar).length = tag.type.size :=
      Endian.length_octets ..
    dsimp only [Tag.spelled] at holds ⊢
    rw [List.take_left' hwidth] at holds ⊢
    cases holds with
    | scalar range demand =>
      exact .scalar hwidth (List.length_replicate ..)
        ((ScalarTag.admits_iff typed range).mpr demand)
  | string =>
    cases holds with
    | string chars length demand =>
      exact .string (Write.length_octets_fixedText _ _) (TextTag.admits_iff.mpr demand)
  | cstring =>
    rename_i tag text
    dsimp only [Tag.spelled] at holds ⊢
    cases holds with
    | cstring chars free length demand =>
      by_cases hwidth : tag.paddedTo = 0
      · have hfree : 0 ∉ text := by
          rw [← nul_mem_fieldText]
          exact ends hwidth
        rw [hwidth, UInt64.toNat_zero, untilZero_octets_terminatedText,
          Reader.untilZero_eq_self hfree] at demand ⊢
        exact .terminated hwidth hfree (TextTag.admits_iff.mpr demand)
      · have hne := TextTag.toNat_paddedTo_ne_zero hwidth
        rw [Write.terminatedText, if_neg hne] at demand ⊢
        exact .padded hwidth (Write.length_octets_fixedText _ _) (TextTag.admits_iff.mpr demand)

/-- What is kept of a slot takes no more bytes than the slot. It takes as many only if no zero byte
ends its text early. -/
theorem Written.size_spelled (h : slot.Written bytes) :
    Slot.size ⟨slot.tag, slot.tag.spelled bytes⟩ ≤ slot.size
      ∧ (Slot.size ⟨slot.tag, slot.tag.spelled bytes⟩ = slot.size → slot.Ends) := by
  cases h with
  | scalar taken => exact ⟨Nat.le_refl _, fun _ => trivial⟩
  | string => exact ⟨Nat.le_refl _, fun _ => trivial⟩
  | cstring =>
    rename_i tag text
    by_cases hwidth : tag.paddedTo = 0
    · rw [hwidth, UInt64.toNat_zero]
      dsimp only [Tag.spelled, Slot.size]
      rw [if_pos hwidth, if_pos hwidth, untilZero_octets_terminatedText, length_fieldText,
        length_fieldText]
      have hle := (List.takeWhile_sublist (l := text) (· != 0)).length_le
      rw [← Reader.untilZero] at hle
      refine ⟨Nat.succ_le_succ hle, ?_⟩
      intro hsame hunbounded
      rw [nul_mem_fieldText]
      rcases Reader.untilZero_cases text with ⟨hfree, -⟩ | ⟨behind, hbehind⟩
      · exact hfree
      · have hlength := congrArg List.length hbehind
        rw [List.length_append, List.length_cons] at hlength
        omega
    · dsimp only [Tag.spelled, Slot.size]
      rw [if_neg hwidth, if_neg hwidth]
      exact ⟨Nat.le_refl _, fun _ h => absurd h hwidth⟩

end Slot

namespace Node

theorem mem_names_keptFields {members : Members} {fields : List (String × Node)} {name : String}
    (h : name ∈ (keptFields members fields).map Prod.fst) : name ∈ fields.map Prod.fst := by
  induction fields with
  | nil => exact h
  | cons field rest ih =>
    obtain ⟨key, node⟩ := field
    rw [keptFields] at h
    split at h
    · exact List.mem_cons_of_mem _ (ih h)
    · rw [List.map_cons, List.mem_cons] at h
      rcases h with rfl | h
      · exact List.mem_cons_self
      · exact List.mem_cons_of_mem _ (ih h)

/-- What is left of a declared field is found where the field is found. -/
theorem find?_keptFields (members : Members) {fields : List (String × Node)}
    (distinct : (fields.map Prod.fst).Nodup) : ∀ field ∈ fields,
      (keptFields members fields).find? field.1 = (members.find? field.1).map field.2.kept := by
  induction fields with
  | nil => exact List.forall_mem_nil _
  | cons field rest ih =>
    obtain ⟨name, node⟩ := field
    rw [List.map_cons, List.nodup_cons] at distinct
    obtain ⟨hnew, hrest⟩ := distinct
    refine List.forall_mem_cons.mpr ⟨?_, ?_⟩
    · rw [keptFields]
      cases hfind : members.find? name with
      | none => exact Members.find?_eq_none fun h => hnew (mem_names_keptFields h)
      | some value => exact Members.find?_cons_self _ _ _
    · intro other hother
      have hne : other.1 ≠ name := fun hname =>
        hnew (List.mem_map.mpr ⟨other, hother, hname⟩)
      rw [← ih hrest other hother, keptFields]
      cases members.find? name with
      | none => rfl
      | some value => exact Members.find?_cons_of_ne hne

/-- The slots of fields that are found where others are, with what is left of their values. -/
theorem fieldSlots_of_find? {left members : Members} {fields : List (String × Node)}
    (each : ∀ field ∈ fields, left.find? field.1 = (members.find? field.1).map field.2.kept
      ∧ ∀ value, field.2.slots (field.2.kept value)
        = (field.2.slots value).map fun slot => ⟨slot.tag, slot.kept⟩) :
    fieldSlots left fields
      = (fieldSlots members fields).map fun slot => ⟨slot.tag, slot.kept⟩ := by
  induction fields with
  | nil => rfl
  | cons field rest ih =>
    obtain ⟨name, node⟩ := field
    obtain ⟨⟨hfind, hslots⟩, hrest⟩ := List.forall_mem_cons.mp each
    rw [fieldSlots, fieldSlots, hfind, ih hrest]
    cases members.find? name with
    | none => rfl
    | some value =>
      rw [Option.map_some]
      dsimp only
      rw [hslots, List.map_append]

/-- The slots of what is left of a record are what is left of its slots. -/
theorem slots_kept {node : Node} (distinct : node.DistinctNames) (value : Json) :
    node.slots (node.kept value) = (node.slots value).map fun slot => ⟨slot.tag, slot.kept⟩ := by
  induction node generalizing value with
  | leaf tag => rfl
  | array element length ih =>
    cases value with
    | array items =>
      simp only [kept, slots, List.flatMap_map, List.map_flatMap, ih distinct.element]
    | _ => rfl
  | branch alternatives ih => rfl
  | struct fields ih =>
    cases value with
    | object members =>
      rw [kept, slots, slots]
      refine fieldSlots_of_find? fun field hfield => ?_
      exact ⟨find?_keptFields members distinct.here field hfield,
        ih field hfield (distinct.field hfield)⟩
    | _ => rfl

end Node

end ByteRecord
