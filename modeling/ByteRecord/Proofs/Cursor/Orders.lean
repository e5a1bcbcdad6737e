import ByteRecord.Cursor.Operation
import ByteRecord.Proofs.Decode.Bulk

/-!
# Numbers in either byte order

Numbers without padding between them are read from a cursor in the order that is given, or else in its
own. Read with the most significant byte first they are the numbers that are read with the least
significant byte first once every slot is reversed, whichever order the machine itself has.
-/

namespace ByteRecord

/-- Where the bytes that remain are whole slots, as many numbers are read from them. -/
theorem Cursor.perform_readScalars_of_rest {c : Cursor} {type : ScalarType} {count : Nat}
    {order : Endian} {given : Option Endian} (horder : given.getD c.order = order)
    (hrest : c.reader.rest.length = count * type.size) :
    (c.perform (.readScalars type count given)).1
      = .ok (.scalars type (type.ofSlots order count c.reader.rest)) := by
  have hcount : c.reader.remaining / type.size = count := by
    rw [Reader.remaining, hrest, Nat.mul_div_cancel _ type.size_pos]
  rw [perform_readScalars, horder, on_replying, Reader.scalars, hcount,
    if_pos (Nat.le_refl count)]

/-- Reversing the bytes of every slot is refused exactly if a slot has no bytes or the bytes are no whole
number of slots. Otherwise it keeps the number of bytes, sends the byte at place `j` of slot `i` to place
`size - 1 - j` of the same slot, and done twice it gives the bytes back. Numbers of this size that are
read from the bytes with the most significant byte first, whether by a cursor or by a machine of either
order from a copy, are those that are read from the reversed slots with the least significant byte
first. -/
theorem flipSlots_exchanges_orders (size : Nat) (bytes : List UInt8) :
    ((∃ cause, flipSlots size bytes = .error cause) ↔ size = 0 ∨ ¬ size ∣ bytes.length)
    ∧ (size ≠ 0 → size ∣ bytes.length → ∃ flipped,
      flipSlots size bytes = .ok flipped
      ∧ flipped.length = bytes.length
      ∧ (∀ i j, j < size → flipped[i * size + (size - 1 - j)]? = bytes[i * size + j]?)
      ∧ flipSlots size flipped = .ok bytes
      ∧ ∀ (type : ScalarType) (count : Nat), type.size = size → count * size = bytes.length →
        ∃ values : List Scalar, values.length = count
          ∧ (∀ (c : Cursor) (given : Option Endian),
              c.reader.rest = bytes → given.getD c.order = .big →
              (c.perform (.readScalars type count given)).1 = .ok (.scalars type values))
          ∧ (∀ (c : Cursor) (given : Option Endian),
              c.reader.rest = flipped → given.getD c.order = .little →
              (c.perform (.readScalars type count given)).1 = .ok (.scalars type values))
          ∧ ∀ native : Endian, type.ofCopy native .big count bytes = .ok values
              ∧ type.ofCopy native .little count flipped = .ok values) := by
  refine ⟨exists_flipSlots_error_iff, fun hsize hdivides => ?_⟩
  have hpos : 0 < size := Nat.pos_of_ne_zero hsize
  have hlength : bytes.length = bytes.length / size * size := (Nat.div_mul_cancel hdivides).symm
  have hflipped := length_reverseSlots size (bytes.length / size) bytes hlength
  have hback := flipSlots_eq_ok hpos (hflipped.trans hlength)
  rw [reverseSlots_reverseSlots hlength] at hback
  refine ⟨reverseSlots size (bytes.length / size) bytes, flipSlots_eq_ok hpos hlength, hflipped,
    fun i j hj => getElem?_reverseSlots hlength hj, hback, ?_⟩
  intro type count htype hcount
  subst htype
  have hnumber : bytes.length / type.size = count := by
    rw [← hcount, Nat.mul_div_cancel _ hpos]
  rw [hnumber] at hflipped ⊢
  have hsame : type.ofSlots .little count (reverseSlots type.size count bytes)
      = type.ofSlots .big count bytes :=
    ScalarType.ofSlots_reverseSlots (by decide) hcount.symm
  refine ⟨type.ofSlots .big count bytes, ScalarType.length_ofSlots .., ?_, ?_, ?_⟩
  · rintro c given rfl horder
    exact Cursor.perform_readScalars_of_rest horder hcount.symm
  · intro c given hrest horder
    rw [Cursor.perform_readScalars_of_rest horder (by rw [hrest, hflipped, hcount]), hrest, hsame]
  · intro native
    have hreversed := ScalarType.ofCopy_eq_ok native .little (hflipped.trans hcount.symm)
    rw [hsame] at hreversed
    exact ⟨ScalarType.ofCopy_eq_ok native .big hcount.symm, hreversed⟩

/-- Two numbers of two bytes: reversed slot by slot they are read in the other order, by a cursor that
stands on them, and a third byte in a slot is one too many. -/
theorem flipSlots_exchanges_orders_words :
    flipSlots 2 [0x01, 0xfe, 0x7f, 0x00] = .ok [0xfe, 0x01, 0x00, 0x7f]
    ∧ flipSlots 2 [0xfe, 0x01, 0x00, 0x7f] = .ok [0x01, 0xfe, 0x7f, 0x00]
    ∧ (∃ cause, flipSlots 3 [0x01, 0xfe, 0x7f, 0x00] = .error cause)
    ∧ ∃ values,
      ((Cursor.ofBytes [0x01, 0xfe, 0x7f, 0x00] .big false).perform
        (.readScalars .int16 2 none)).1 = .ok (.scalars .int16 values)
      ∧ ((Cursor.ofBytes [0xfe, 0x01, 0x00, 0x7f] .big false).perform
        (.readScalars .int16 2 (some .little))).1 = .ok (.scalars .int16 values) := by
  have hwords : flipSlots 2 [0x01, 0xfe, 0x7f, 0x00] = .ok [0xfe, 0x01, 0x00, 0x7f] := rfl
  obtain ⟨-, heven⟩ := flipSlots_exchanges_orders 2 [0x01, 0xfe, 0x7f, 0x00]
  obtain ⟨huneven, -⟩ := flipSlots_exchanges_orders 3 [0x01, 0xfe, 0x7f, 0x00]
  obtain ⟨flipped, hflipped, -, -, hback, hread⟩ := heven (by decide) (by decide)
  obtain rfl : [0xfe, 0x01, 0x00, 0x7f] = flipped := Except.ok.inj (hwords.symm.trans hflipped)
  obtain ⟨values, -, hbig, hlittle, -⟩ := hread .int16 2 rfl rfl
  exact ⟨hwords, hback, huneven.mpr (Or.inr (by decide)), values, hbig _ none rfl rfl,
    hlittle _ (some .little) rfl rfl⟩

end ByteRecord
