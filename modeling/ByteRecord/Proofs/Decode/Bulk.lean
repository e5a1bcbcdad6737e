import ByteRecord.Proofs.Decode.Taking
import ByteRecord.Proofs.Octets.Slots

/-!
# Scalars that are read in one go

An array of plain scalars is read in one go: the bytes of all its slots are copied, every slot of the
copy is reversed if the machine has the other byte order, and the numbers are looked at where they
stand. Whatever byte order the machine has, these are the numbers that reading one slot after the
other comes to, and whether there are bytes enough for all of them is found by a division in front of
them instead of at the first that is missing.
-/

namespace ByteRecord

/-- The values in a copy of `count` slots as a machine of byte order `native` looks at them. Slots of
more than one byte in the other order are reversed first. -/
def ScalarType.ofCopy (native order : Endian) (type : ScalarType) (count : Nat)
    (copy : List UInt8) : Except SlotError (List Scalar) := do
  let words ← if 1 < type.size ∧ order ≠ native then flipSlots type.size copy else .ok copy
  return type.ofSlots native count words

namespace Endian

variable {order other : Endian} {bytes : List UInt8}

/-- Reversed bytes spell the same number in the other order. -/
theorem word_reverse (h : order ≠ other) : other.word bytes.reverse = order.word bytes := by
  cases order with
  | big =>
    cases other with
    | big => exact absurd rfl h
    | little => rfl
  | little =>
    cases other with
    | big => rw [word, word, arrange, arrange, List.reverse_reverse]
    | little => exact absurd rfl h

/-- A single byte spells the same number in both orders. -/
theorem word_of_length_le_one (h : bytes.length ≤ 1) : other.word bytes = order.word bytes := by
  by_cases hsame : order = other
  · rw [hsame]
  · have hreverse : bytes.reverse = bytes := by
      match bytes, h with
      | [], _ => rfl
      | [byte], _ => rfl
    rw [← word_reverse hsame, hreverse]

end Endian

namespace ScalarType

variable {type : ScalarType} {native order : Endian} {count : Nat} {bytes : List UInt8}

/-- Reversed slots hold the same values in the other order. -/
theorem ofSlots_reverseSlots (h : order ≠ native) (hlength : bytes.length = count * type.size) :
    type.ofSlots native count (reverseSlots type.size count bytes)
      = type.ofSlots order count bytes := by
  induction count generalizing bytes with
  | zero => rfl
  | succ count ih =>
    obtain ⟨htake, hrest⟩ := length_take_drop_slot hlength
    have hslot : (bytes.take type.size).reverse.length = type.size := by
      rw [List.length_reverse, htake]
    have hfirst : type.ofOctets native (bytes.take type.size).reverse
        = type.ofOctets order (bytes.take type.size) := by
      rw [ofOctets, ofOctets, Endian.word_reverse h]
    rw [ofSlots, ofSlots, reverseSlots, List.take_left' hslot, List.drop_left' hslot, hfirst,
      ih hrest]

/-- Slots of one byte hold the same values in both orders. -/
theorem ofSlots_of_size_le_one (h : type.size ≤ 1) :
    type.ofSlots native count bytes = type.ofSlots order count bytes := by
  induction count generalizing bytes with
  | zero => rfl
  | succ count ih =>
    have hslot : (bytes.take type.size).length ≤ 1 := (List.length_take_le _ _).trans h
    have hfirst : type.ofOctets native (bytes.take type.size)
        = type.ofOctets order (bytes.take type.size) := by
      rw [ofOctets, ofOctets, Endian.word_of_length_le_one hslot]
    rw [ofSlots, ofSlots, hfirst, ih]

/-- The values in a copy of whole slots are those of the slots, whatever byte order the machine
has. -/
theorem ofCopy_eq_ok (native order : Endian) (hlength : bytes.length = count * type.size) :
    type.ofCopy native order count bytes = .ok (type.ofSlots order count bytes) := by
  unfold ofCopy
  by_cases hswap : 1 < type.size ∧ order ≠ native
  · obtain ⟨hsize, horder⟩ := hswap
    rw [if_pos ⟨hsize, horder⟩, flipSlots_eq_ok (Nat.zero_lt_of_lt hsize) hlength]
    exact congrArg Except.ok (ofSlots_reverseSlots horder hlength)
  · rw [if_neg hswap]
    refine congrArg Except.ok ?_
    by_cases hsame : order = native
    · rw [hsame]
    · have hsize : type.size ≤ 1 := Nat.le_of_not_lt fun hmore => hswap ⟨hmore, hsame⟩
      exact ofSlots_of_size_le_one hsize

end ScalarType

namespace Node

variable {scope : Scope} {tag : ScalarTag} {length : Length} {count : Nat} {r : Reader}

/-- A scalar of its natural width that nothing is demanded of is read in one go with those next to
it. -/
theorem plainScalar?_of_natural (natural : tag.paddedTo.toNat ≤ tag.type.size)
    (free : tag.constraint = none) : (leaf (.scalar tag)).plainScalar? = some tag := by
  have hpadding : tag.padding = 0 := Nat.sub_eq_zero_of_le natural
  rw [plainScalar?, if_pos ⟨hpadding, by rw [free]; rfl⟩]

/-- Reading a plain scalar takes its size. -/
theorem takes_decode_plain (natural : tag.paddedTo.toNat ≤ tag.type.size)
    (free : tag.constraint = none) (scope : Scope) :
    Takes ((leaf (.scalar tag)).decode scope) tag.type.size := by
  have hfree : (Tag.scalar tag).hasConstraint = false := by
    rw [Tag.hasConstraint, free]
    rfl
  have hextent : (Tag.scalar tag).extent = tag.type.size := by
    rw [Tag.extent, ScalarTag.padding, Nat.sub_eq_zero_of_le natural, Nat.add_zero]
  have htakes : Takes (fun r => (Tag.scalar tag).decode r) (Tag.scalar tag).extent :=
    Tag.takes_decode (Option.some_ne_none _) hfree
  rwa [decode_leaf, ← hextent]

/-- An array of plain scalars fails where it stands if its bytes are not there. -/
theorem decode_plain_array_of_short (natural : tag.paddedTo.toNat ≤ tag.type.size)
    (free : tag.constraint = none)
    (hcount : length.resolve scope r.remaining = .ok (some count))
    (hshort : r.remaining < count * tag.type.size) :
    (array (leaf (.scalar tag)) length).decode scope r
      = .failed (.bounds (.arrayPastEnd count r.offset r.size)) r := by
  rw [decode, hcount]
  simp only [plainScalar?_of_natural natural free, Reader.scalars_eq_error hshort]
  rfl

/-- Plain scalars that are read in one go are those that are read one by one, whatever byte order the
machine has. Where their bytes are not there, both ways fail for want of bytes, and reading in one go
fails where it started. -/
theorem decode_plain_array (natural : tag.paddedTo.toNat ≤ tag.type.size)
    (free : tag.constraint = none)
    (hcount : length.resolve scope r.remaining = .ok (some count)) (native : Endian) :
    (count * tag.type.size ≤ r.remaining → ∃ scalars values,
        tag.type.ofCopy native tag.order count (r.rest.take (count * tag.type.size)) = .ok scalars
        ∧ values = scalars.map (fun value => Json.number value.toNumber)
        ∧ ((array (leaf (.scalar tag)) length).decode scope r).Matches (.array values)
            (r.advance (count * tag.type.size))
        ∧ (Outcome.repeated ((leaf (.scalar tag)).decode scope) count count r).Matches values
            (r.advance (count * tag.type.size)))
      ∧ (r.remaining < count * tag.type.size →
        (array (leaf (.scalar tag)) length).decode scope r
            = .failed (.bounds (.arrayPastEnd count r.offset r.size)) r
        ∧ ∃ bounds, (Outcome.repeated ((leaf (.scalar tag)).decode scope) count count r).Fails
            (.bounds bounds)) := by
  refine ⟨fun hroom => ?_, fun hshort => ?_⟩
  · let copy := r.rest.take (count * tag.type.size)
    let scalars := tag.type.ofSlots tag.order count copy
    let values := scalars.map fun value => Json.number value.toNumber
    have hcopy : copy.length = count * tag.type.size := List.length_take_of_le hroom
    have hvalues : values.length = count := by
      rw [List.length_map, ScalarType.length_ofSlots]
    have hrun : Run ((leaf (.scalar tag)).decode scope) r values
        (r.advance (count * tag.type.size)) := by
      refine (run_plain_iff (plainScalar?_of_natural natural free)).mpr
        ⟨copy, Reader.passes_advance hroom, ?_, ?_⟩
      · rw [hcopy, hvalues]
      · rw [hvalues]
    have harray := (decode_counted_matches_iff hcount).mpr ⟨values, rfl, hrun, hvalues⟩
    exact ⟨scalars, values, ScalarType.ofCopy_eq_ok native tag.order hcopy, rfl, harray,
      Outcome.repeated_matches_iff.mpr ⟨hrun, hvalues⟩⟩
  · have hslow := (takes_decode_plain natural free scope).repeated count count
    exact ⟨decode_plain_array_of_short natural free hcount hshort, hslow.short r hshort⟩

/-- The tag of a signed number of two bytes, the least significant first. -/
def wordTag : ScalarTag := ⟨.int16, .little, 0, none⟩

/-- Two such numbers and half a third, behind another byte. -/
def wordReader : Reader := ⟨1, [0xfe, 0xff, 0x01, 0x00, 0x07]⟩

/-- A machine of the other byte order reverses both numbers, and a third one is missed. -/
theorem decode_plain_array_words :
    (∃ scalars values,
        ScalarType.ofCopy .big .little .int16 2 [0xfe, 0xff, 0x01, 0x00] = .ok scalars
        ∧ values = scalars.map (fun value => Json.number value.toNumber)
        ∧ ((array (leaf (.scalar wordTag)) (.literal 2)).decode none wordReader).Matches
            (.array values) ⟨5, [0x07]⟩
        ∧ (Outcome.repeated ((leaf (.scalar wordTag)).decode none) 2 2 wordReader).Matches
            values ⟨5, [0x07]⟩)
      ∧ (array (leaf (.scalar wordTag)) (.literal 3)).decode none wordReader
          = .failed (.bounds (.arrayPastEnd 3 1 6)) wordReader := by
  have htwo : (Length.literal 2).resolve none wordReader.remaining = .ok (some 2) :=
    eq_ok_of_toOption (by decide +kernel)
  have hthree : (Length.literal 3).resolve none wordReader.remaining = .ok (some 3) :=
    eq_ok_of_toOption (by decide +kernel)
  have hnatural : wordTag.paddedTo.toNat ≤ wordTag.type.size := by decide
  obtain ⟨henough, -⟩ := decode_plain_array hnatural rfl htwo .big
  obtain ⟨-, hshort⟩ := decode_plain_array hnatural rfl hthree .big
  exact ⟨henough (by decide), (hshort (by decide)).1⟩

end Node

end ByteRecord
