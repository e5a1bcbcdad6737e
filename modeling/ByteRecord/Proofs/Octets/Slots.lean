import ByteRecord.Octets.Endian
import Mathlib.Tactic.Ring

/-!
# Reversed slots

Reversing every slot of a run of bytes keeps the slots apart: the byte at a place of a slot goes to the
mirrored place of the same slot, and reversing a second time puts it back. It is refused exactly where
the bytes are no whole number of slots.
-/

namespace ByteRecord

variable {size count : Nat} {bytes : List UInt8}

/-- The bytes of whole slots can be reversed slot by slot. -/
theorem flipSlots_eq_ok (hsize : 0 < size) (h : bytes.length = count * size) :
    flipSlots size bytes = .ok (reverseSlots size count bytes) := by
  have heven : bytes.length % size = 0 := by rw [h, Nat.mul_mod_left]
  have hcount : bytes.length / size = count := by rw [h, Nat.mul_div_cancel _ hsize]
  rw [flipSlots, if_neg hsize.ne', if_neg (not_not_intro heven), hcount]

/-- Bytes that are no whole number of slots are not reversed, and neither are slots without bytes. -/
theorem exists_flipSlots_error_iff :
    (∃ cause, flipSlots size bytes = .error cause) ↔ size = 0 ∨ ¬ size ∣ bytes.length := by
  rw [Nat.dvd_iff_mod_eq_zero]
  by_cases hsize : size = 0
  · rw [flipSlots, if_pos hsize]
    exact iff_of_true ⟨_, rfl⟩ (Or.inl hsize)
  · by_cases heven : bytes.length % size = 0
    · rw [flipSlots, if_neg hsize, if_neg (not_not_intro heven)]
      refine iff_of_false (fun ⟨_, h⟩ => ?_) (not_or_intro hsize (not_not_intro heven))
      cases h
    · rw [flipSlots, if_neg hsize, if_pos heven]
      exact iff_of_true ⟨_, rfl⟩ (Or.inr heven)

/-- The first slot of whole slots is one, and whole slots follow it. -/
theorem length_take_drop_slot (h : bytes.length = (count + 1) * size) :
    (bytes.take size).length = size ∧ (bytes.drop size).length = count * size := by
  rw [Nat.succ_mul] at h
  rw [List.length_take, List.length_drop]
  omega

/-- Slots that are reversed twice are as they were. -/
theorem reverseSlots_reverseSlots (h : bytes.length = count * size) :
    reverseSlots size count (reverseSlots size count bytes) = bytes := by
  induction count generalizing bytes with
  | zero =>
    rw [Nat.zero_mul, List.length_eq_zero_iff] at h
    rw [h, reverseSlots]
  | succ count ih =>
    obtain ⟨hslot, hrest⟩ := length_take_drop_slot h
    have hreversed : (bytes.take size).reverse.length = size := by
      rw [List.length_reverse, hslot]
    rw [reverseSlots, reverseSlots, List.take_left' hreversed, List.drop_left' hreversed,
      List.reverse_reverse, ih hrest, List.take_append_drop]

/-- The byte at a place of a slot goes to the mirrored place of the slot. -/
theorem getElem?_reverseSlots (h : bytes.length = count * size) {i j : Nat} (hj : j < size) :
    (reverseSlots size count bytes)[i * size + (size - 1 - j)]? = bytes[i * size + j]? := by
  induction count generalizing bytes i with
  | zero =>
    rw [Nat.zero_mul, List.length_eq_zero_iff] at h
    rw [h, reverseSlots, List.getElem?_nil, List.getElem?_nil]
  | succ count ih =>
    obtain ⟨hslot, hrest⟩ := length_take_drop_slot h
    have hreversed : (bytes.take size).reverse.length = size := by
      rw [List.length_reverse, hslot]
    rw [reverseSlots]
    cases i with
    | zero =>
      have hmirrored : size - 1 - (size - 1 - j) = j := by omega
      rw [Nat.zero_mul, Nat.zero_add, Nat.zero_add, List.getElem?_append_left (by omega),
        List.getElem?_reverse (by omega), hslot, hmirrored, List.getElem?_take_of_lt hj]
    | succ i =>
      -- The place lies behind the first slot, by as much as its own slot does among the others.
      have hbehind : (i + 1) * size + (size - 1 - j) - size = i * size + (size - 1 - j) := by
        rw [Nat.succ_mul]
        omega
      have hplace : size + (i * size + j) = (i + 1) * size + j := by ring
      rw [List.getElem?_append_right (by rw [hreversed, Nat.succ_mul]; omega), hreversed, hbehind,
        ih hrest, List.getElem?_drop, hplace]

end ByteRecord
