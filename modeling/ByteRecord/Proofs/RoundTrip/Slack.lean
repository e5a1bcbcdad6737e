import ByteRecord.Proofs.Encode.Written
import ByteRecord.Proofs.Scalar.Keeping

/-!
# Slots that are written again

Writing what the bytes of a slot spell gives the bytes back, except that slack becomes zero: the
bytes that fill a slot behind a number, and those behind the zero byte that ends a text.
-/

namespace ByteRecord

/-- The bytes with those that the mask marks set to zero. -/
def clear (mask : List Bool) (bytes : List UInt8) : List UInt8 :=
  List.zipWith (fun slack byte => if slack then 0 else byte) mask bytes

theorem length_clear {mask : List Bool} {bytes : List UInt8} (h : mask.length = bytes.length) :
    (clear mask bytes).length = bytes.length := by
  rw [clear, List.length_zipWith, h, Nat.min_self]

theorem clear_append {mask others : List Bool} {bytes more : List UInt8}
    (h : mask.length = bytes.length) :
    clear (mask ++ others) (bytes ++ more) = clear mask bytes ++ clear others more :=
  List.zipWith_append h

/-- Nothing is cleared where nothing is slack. -/
theorem clear_replicate_false (bytes : List UInt8) :
    clear (List.replicate bytes.length false) bytes = bytes := by
  induction bytes with
  | nil => rfl
  | cons byte rest ih =>
    rw [List.length_cons, List.replicate_succ, clear, List.zipWith_cons_cons, ← clear, ih]
    rfl

theorem clear_replicate_true (bytes : List UInt8) :
    clear (List.replicate bytes.length true) bytes = List.replicate bytes.length 0 := by
  induction bytes with
  | nil => rfl
  | cons byte rest ih =>
    rw [List.length_cons, List.replicate_succ, clear, List.zipWith_cons_cons, ← clear, ih,
      List.replicate_succ]
    rfl

/-- A slot that splits into what its value decides and slack. -/
theorem Slot.clear_mask (slot : Slot) {front fill : List UInt8} (hfront : front.length = slot.held)
    (hsize : (front ++ fill).length = slot.size) :
    clear slot.mask (front ++ fill) = front ++ List.replicate fill.length 0 := by
  have hfill : slot.size - slot.held = fill.length := by
    rw [← hsize, List.length_append, hfront, Nat.add_sub_cancel_left]
  rw [mask, hfill, ← hfront, clear_append (List.length_replicate ..), clear_replicate_false,
    clear_replicate_true]

/-- A slot without slack keeps its bytes. -/
theorem Slot.clear_mask_self (slot : Slot) {bytes : List UInt8} (hheld : bytes.length = slot.held)
    (hsize : bytes.length = slot.size) : clear slot.mask bytes = bytes := by
  have hfull : (bytes ++ []).length = slot.size := by rw [List.append_nil, hsize]
  have hcleared := slot.clear_mask hheld hfull
  rwa [List.append_nil, List.length_nil, List.replicate_zero, List.append_nil] at hcleared

/-- What is written for the value that the bytes of a slot spell. -/
theorem Tag.Spells.octets_eq {tag : Tag} {bytes : List UInt8} {value : Json}
    (h : tag.Spells bytes value) (hnan : Slot.isNaN ⟨tag, value⟩ = false) :
    Slot.octets ⟨tag, value⟩ = clear (Slot.mask ⟨tag, value⟩) bytes := by
  have hsize := h.length_eq
  cases h with
  | scalar hwidth hpadding hadmits =>
    rename_i tag content fill
    obtain ⟨scalar, hscalar, hwritten⟩ := ScalarType.toOctets_ofOctets tag.order hwidth hnan
    rw [Slot.clear_mask _ hwidth hsize, hpadding, Slot.octets_scalar hscalar, hwritten]
  | string hwidth hadmits =>
    rw [Slot.clear_mask_self _ hwidth hsize, Slot.octets_string, ← hwidth,
      Write.octets_fixedText_self]
  | padded hbounded hwidth hadmits =>
    rename_i tag
    have hne : bytes.length ≠ 0 := by
      rw [hwidth]
      exact TextTag.toNat_paddedTo_ne_zero hbounded
    rw [Slot.octets_cstring, Write.terminatedText, ← hwidth, if_neg hne]
    have hheld : Slot.held ⟨.cstring tag, .string (fieldText (Reader.untilZero bytes))⟩
        = min ((Reader.untilZero bytes).length + 1) bytes.length := by
      rw [Slot.held, if_neg hbounded, length_fieldText, hwidth]
    -- Either no zero byte ends the text, or it stands behind the text and in front of the slack.
    rcases Reader.untilZero_cases bytes with ⟨-, hself⟩ | ⟨behind, hbehind⟩
    · rw [hself] at hheld hsize ⊢
      rw [Slot.clear_mask_self _ ?_ hsize, Write.octets_fixedText_self]
      rw [hheld]
      omega
    · generalize Reader.untilZero bytes = text at hbehind hheld hsize ⊢
      subst hbehind
      have hsplit : text ++ 0 :: behind = (text ++ [0]) ++ behind := by
        rw [List.append_assoc, List.singleton_append]
      rw [hsplit] at hsize hheld ⊢
      rw [Slot.clear_mask _ ?_ hsize]
      · have hroom : ((text ++ [0]) ++ behind).length = text.length + (behind.length + 1) := by
          simp only [List.length_append, List.length_singleton]
          omega
        rw [hroom, Write.octets_fixedText (Nat.le_add_right _ _), Nat.add_sub_cancel_left,
          List.replicate_succ, List.append_assoc, List.singleton_append]
      · rw [hheld]
        simp only [List.length_append, List.length_singleton]
        omega
  | terminated hunbounded hfree hadmits =>
    rename_i tag text
    rw [Slot.clear_mask_self _ ?_ hsize, Slot.octets_cstring, hunbounded]
    · rw [UInt64.toNat_zero, Write.terminatedText, if_pos rfl]
      rfl
    · rw [Slot.held, if_pos hunbounded, length_fieldText, List.length_append]
      rfl

/-- What is written for the slots that some bytes spell. -/
theorem Spelled.octets_eq {slots : List Slot} {bytes : List UInt8} (h : Spelled slots bytes)
    (hnan : ∀ slot ∈ slots, slot.isNaN = false) :
    slots.flatMap Slot.octets = clear (slackMask slots) bytes := by
  induction h with
  | nil => rfl
  | cons first rest ih =>
    obtain ⟨hslot, hslots⟩ := List.forall_mem_cons.mp hnan
    have hlength := first.length_eq
    rw [List.flatMap_cons, slackMask, List.flatMap_cons, ← slackMask,
      clear_append ((Slot.length_mask _).trans hlength.symm), ih hslots, first.octets_eq hslot]

end ByteRecord
