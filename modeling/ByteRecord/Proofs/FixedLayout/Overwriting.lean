import ByteRecord.Proofs.Cursor.Writing
import ByteRecord.Proofs.FixedLayout.Placement

/-!
# Replacing the bytes of a field

Bytes are the same list if the same byte stands at every place of them. Replacing the bytes of a field
changes what stands at its own places only, so the bytes of a field that is apart from it stay, and
two such fields may be replaced in either order.
-/

namespace ByteRecord

variable {bytes content first second : List UInt8} {position : Nat}

theorem splice_bytes_eq_overwrite (bytes : List UInt8) (position : Nat) (content : List UInt8) :
    Cursor.splice bytes position (.bytes content) = overwrite bytes position content := by
  rw [Cursor.splice, Write.octets, Write.size, Write.bytes, overwrite, List.replicate_zero,
    List.append_nil, Nat.add_zero]

/-- Bytes that are replaced within some others keep their number. -/
theorem length_overwrite_of_le (room : position + content.length ≤ bytes.length) :
    (overwrite bytes position content).length = bytes.length := by
  rw [length_overwrite (by omega), Nat.max_eq_left room]

/-- What stands at a place is new if it is one of those that are replaced. -/
theorem getElem?_overwrite (room : position + content.length ≤ bytes.length) (i : Nat) :
    (overwrite bytes position content)[i]?
      = if position ≤ i ∧ i < position + content.length then content[i - position]?
        else bytes[i]? := by
  have hfront : (bytes.take position).length = position := List.length_take_of_le (by omega)
  have hmiddle : (bytes.take position ++ content).length = position + content.length := by
    rw [List.length_append, hfront]
  rw [overwrite]
  by_cases hbehind : i < position + content.length
  · rw [List.getElem?_append_left (hmiddle ▸ hbehind)]
    by_cases hbefore : position ≤ i
    · rw [List.getElem?_append_right (by omega), hfront, if_pos ⟨hbefore, hbehind⟩]
    · have hi : i < (bytes.take position).length := by omega
      rw [List.getElem?_append_left hi, List.getElem?_take_of_lt (by omega),
        if_neg fun h => hbefore h.1]
  · rw [List.getElem?_append_right (by omega), hmiddle, List.getElem?_drop,
      if_neg fun h => hbehind h.2]
    congr 1
    omega

/-- Where bytes are replaced twice, those that were put down last are there. -/
theorem overwrite_again (room : position + first.length ≤ bytes.length)
    (same : second.length = first.length) :
    overwrite (overwrite bytes position first) position second
      = overwrite bytes position second := by
  have hroom : position + second.length ≤ bytes.length := by omega
  have hlater : position + second.length ≤ (overwrite bytes position first).length := by
    rwa [length_overwrite_of_le room]
  refine List.ext_getElem? fun i => ?_
  rw [getElem?_overwrite hlater, getElem?_overwrite hroom, getElem?_overwrite room, same]
  split
  · rfl
  · rfl

namespace PlacedField

variable {field other : PlacedField}

/-- What stands at a place of a field. -/
theorem getElem?_slice (field : PlacedField) (bytes : List UInt8) (i : Nat) :
    (field.slice bytes)[i]?
      = if i < field.size.toNat then bytes[field.offset.toNat + i]? else none := by
  rw [slice, List.getElem?_take, List.getElem?_drop]

/-- The bytes of a field that are replaced are those that are put down. -/
theorem slice_overwrite (room : field.offset.toNat + field.size.toNat ≤ bytes.length)
    (width : content.length = field.size.toNat) :
    field.slice (overwrite bytes field.offset.toNat content) = content := by
  refine List.ext_getElem? fun i => ?_
  rw [getElem?_slice]
  split
  · rename_i hi
    rw [getElem?_overwrite (width.symm ▸ room), if_pos (by omega), Nat.add_sub_cancel_left]
  · rename_i hi
    exact (List.getElem?_eq_none (by omega)).symm

/-- Putting down what is there changes nothing. -/
theorem overwrite_slice (room : field.offset.toNat + field.size.toNat ≤ bytes.length) :
    overwrite bytes field.offset.toNat (field.slice bytes) = bytes := by
  have hwidth := FixedLayout.length_slice room
  refine List.ext_getElem? fun i => ?_
  rw [getElem?_overwrite (hwidth.symm ▸ room), hwidth]
  split
  · rename_i hi
    rw [getElem?_slice, if_pos (by omega), Nat.add_sub_cancel' hi.1]
  · rfl

/-- Two fields have no byte in common. -/
def Apart (field other : PlacedField) : Prop :=
  field.offset.toNat + field.size.toNat ≤ other.offset.toNat
    ∨ other.offset.toNat + other.size.toNat ≤ field.offset.toNat

theorem Apart.symm (apart : field.Apart other) : other.Apart field := Or.symm apart

/-- Replacing the bytes of a field leaves those of a field apart from it. -/
theorem Apart.slice_overwrite (apart : field.Apart other)
    (room : field.offset.toNat + field.size.toNat ≤ bytes.length)
    (width : content.length = field.size.toNat) :
    other.slice (overwrite bytes field.offset.toNat content) = other.slice bytes := by
  rw [Apart] at apart
  refine List.ext_getElem? fun i => ?_
  rw [getElem?_slice, getElem?_slice]
  split
  · rw [getElem?_overwrite (width.symm ▸ room), if_neg (by omega)]
  · rfl

/-- Fields that are apart are replaced in either order. -/
theorem Apart.overwrite_comm (apart : field.Apart other)
    (room : field.offset.toNat + field.size.toNat ≤ bytes.length)
    (otherRoom : other.offset.toNat + other.size.toNat ≤ bytes.length)
    (width : first.length = field.size.toNat) (otherWidth : second.length = other.size.toNat) :
    overwrite (overwrite bytes field.offset.toNat first) other.offset.toNat second
      = overwrite (overwrite bytes other.offset.toNat second) field.offset.toNat first := by
  rw [← width] at room
  rw [← otherWidth] at otherRoom
  rw [Apart, ← width, ← otherWidth] at apart
  have hroom : field.offset.toNat + first.length
      ≤ (overwrite bytes other.offset.toNat second).length := by
    rwa [length_overwrite_of_le otherRoom]
  have hotherRoom : other.offset.toNat + second.length
      ≤ (overwrite bytes field.offset.toNat first).length := by
    rwa [length_overwrite_of_le room]
  refine List.ext_getElem? fun i => ?_
  rw [getElem?_overwrite hroom, getElem?_overwrite hotherRoom, getElem?_overwrite room,
    getElem?_overwrite otherRoom]
  split
  · rw [if_neg (by omega)]
  · rfl

end PlacedField

end ByteRecord
