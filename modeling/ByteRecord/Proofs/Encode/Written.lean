import ByteRecord.Proofs.Encode.Slots

/-!
# What is written for a slot

The bytes of a slot: those of its number with zeros up to the width of the slot, or those of its text
with zeros behind them, as far as both have room.
-/

namespace ByteRecord

/-- What is written for a scalar: its bytes, and zeros up to the width of the slot. -/
theorem ScalarTag.octets_writes (tag : ScalarTag) (scalar : Scalar) :
    (tag.writes scalar).flatMap Write.octets
      = tag.type.toOctets tag.order scalar ++ List.replicate tag.padding 0 := by
  unfold writes
  dsimp only
  split
  · rename_i hpadding
    rw [hpadding, List.flatMap_singleton]
    rfl
  · rw [List.flatMap_cons, List.flatMap_singleton, Write.octets, Write.octets, Write.bytes,
      Write.zeroed, List.replicate_zero, List.append_nil, List.nil_append]

/-- A text fills its slot, whatever its own length. -/
theorem Write.length_octets_fixedText (text : List UInt8) (width : Nat) :
    (fixedText text width).octets.length = width := by
  rw [length_octets, size, fixedText, List.length_take]
  dsimp only
  omega

/-- A text that has room is written with zeros behind it. -/
theorem Write.octets_fixedText {text : List UInt8} {width : Nat} (h : text.length ≤ width) :
    (fixedText text width).octets = text ++ List.replicate (width - text.length) 0 := by
  rw [fixedText, octets, List.take_of_length_le h]

/-- A text that fills its slot is written as it is. -/
theorem Write.octets_fixedText_self (text : List UInt8) :
    (fixedText text text.length).octets = text := by
  rw [octets_fixedText (Nat.le_refl _), Nat.sub_self, List.replicate_zero, List.append_nil]

theorem Json.fieldBytes_fieldText (text : List UInt8) :
    (Json.string (fieldText text)).fieldBytes = .ok text := by
  rw [fieldBytes, fieldBytes?_fieldText]

/-- What is written for a number that the slot takes. -/
theorem Slot.octets_scalar {tag : ScalarTag} {value : Json} {scalar : Scalar}
    (h : tag.type.ofJson value = .ok scalar) :
    Slot.octets ⟨.scalar tag, value⟩
      = tag.type.toOctets tag.order scalar ++ List.replicate tag.padding 0 := by
  rw [octets, Tag.writes, h]
  exact tag.octets_writes scalar

/-- What is written for a text of fixed width. -/
theorem Slot.octets_string (tag : TextTag) (text : List UInt8) :
    Slot.octets ⟨.string tag, .string (fieldText text)⟩
      = (Write.fixedText text tag.paddedTo.toNat).octets := by
  rw [octets, Tag.writes, Json.fieldBytes_fieldText]
  exact List.append_nil _

/-- What is written for a text that a zero byte ends. -/
theorem Slot.octets_cstring (tag : TextTag) (text : List UInt8) :
    Slot.octets ⟨.cstring tag, .string (fieldText text)⟩
      = (Write.terminatedText text tag.paddedTo.toNat).octets := by
  rw [octets, Tag.writes, Json.fieldBytes_fieldText]
  exact List.append_nil _

/-- What is written for a value, whatever the bytes of the slot meant before. -/
inductive Slot.Written : Slot → List UInt8 → Prop
  /-- The bytes of a number, and zeros behind them. -/
  | scalar {tag : ScalarTag} {value : Json} {scalar : Scalar}
      (taken : tag.type.ofJson value = .ok scalar) :
      Written ⟨.scalar tag, value⟩
        (tag.type.toOctets tag.order scalar ++ List.replicate tag.padding 0)
  /-- A text, cut or filled to the width of the slot. -/
  | string {tag : TextTag} {text : List UInt8} :
      Written ⟨.string tag, .string (fieldText text)⟩
        (Write.fixedText text tag.paddedTo.toNat).octets
  /-- A text with a zero byte behind it where that has room. -/
  | cstring {tag : TextTag} {text : List UInt8} :
      Written ⟨.cstring tag, .string (fieldText text)⟩
        (Write.terminatedText text tag.paddedTo.toNat).octets

/-- Values that are written for text slots are texts of bytes. -/
theorem Json.eq_fieldText_of_fieldBytes {value : Json} {text : List UInt8}
    (h : value.fieldBytes = .ok text) : value = .string (fieldText text) := by
  cases value with
  | string s =>
    rw [fieldBytes] at h
    split at h
    · rename_i bytes hbytes
      injection h with h
      rw [← h, ← fieldBytes?_eq_some.mp hbytes]
    · cases h
  | _ => cases h

/-- Every slot that is written is written in one of the three ways. -/
theorem Slot.Writable.written {slot : Slot} (h : slot.Writable) : slot.Written slot.octets := by
  obtain ⟨tag, value⟩ := slot
  obtain ⟨writes, hwrites⟩ := h
  dsimp only at hwrites
  cases tag with
  | scalar tag =>
    obtain ⟨scalar, hscalar, -⟩ := map_eq_ok_iff.mp hwrites
    rw [octets_scalar hscalar]
    exact .scalar hscalar
  | string tag =>
    obtain ⟨text, htext, -⟩ := map_eq_ok_iff.mp hwrites
    rw [Json.eq_fieldText_of_fieldBytes htext, octets_string]
    exact .string
  | cstring tag =>
    obtain ⟨text, htext, -⟩ := map_eq_ok_iff.mp hwrites
    rw [Json.eq_fieldText_of_fieldBytes htext, octets_cstring]
    exact .cstring

/-- The writes of a slot fill it. -/
theorem Slot.Written.length_eq {slot : Slot} {bytes : List UInt8} (h : slot.Written bytes) :
    bytes.length = slot.size := by
  cases h with
  | scalar htaken =>
    rw [List.length_append, List.length_replicate, ScalarType.toOctets, Endian.length_octets,
      Slot.size]
  | string => exact Write.length_octets_fixedText _ _
  | cstring =>
    rename_i tag text
    rw [Slot.size, Write.terminatedText]
    by_cases hwidth : tag.paddedTo = 0
    · rw [hwidth, UInt64.toNat_zero, if_pos rfl, if_pos rfl, Write.length_octets, length_fieldText]
      rfl
    · have hne := TextTag.toNat_paddedTo_ne_zero hwidth
      rw [if_neg hwidth, if_neg hne]
      exact Write.length_octets_fixedText _ _

end ByteRecord
