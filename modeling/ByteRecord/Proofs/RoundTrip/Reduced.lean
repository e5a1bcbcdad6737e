import ByteRecord.Proofs.Decode.Filtering
import ByteRecord.Proofs.Encode.Acceptance
import ByteRecord.Proofs.Floating.Integers
import Mathlib.Data.Int.ModEq

/-!
# Integers reduced to their slots

An integer slot takes every integer and every floating-point number in the range of signed 64-bit
integers, which loses its fraction. What it gives back is the integer of its type that is congruent to
this integer modulo the number of its words: the wrap into 64 bits, the narrowing, the byte order and
the padding in between do not show. Any other value is an error of the record, and nothing is written.
-/

namespace ByteRecord

/-- The integer that a JSON value stands for in an integer slot. -/
inductive Json.TruncatesTo : Json → Int → Prop
  /-- An integer stands for itself. -/
  | integer {n : Number} {i : Int} (integer : n.integer? = some i) : TruncatesTo (.number n) i
  /-- A floating-point number in the range of signed 64-bit integers stands for its integer part,
  toward zero. It is given in units of the least positive number. -/
  | real {x : Binary64} (finite : x.isFinite = true)
      (least : -(signedBound * Binary64.format.one : Int) ≤ x.scaled)
      (bound : x.scaled < (signedBound * Binary64.format.one : Int)) :
      TruncatesTo (.number (.real x)) (x.scaled.tdiv Binary64.format.one)

/-- The integer `j` is in the range of the type and congruent to `i` modulo the number of words. -/
structure ScalarType.Reduces (type : ScalarType) (i j : Int) : Prop where
  /-- Nothing in the range is less. -/
  least : type.least ≤ j
  /-- The range ends below its bound. -/
  bound : j < type.bound
  /-- The type has two to the number of its bits words. -/
  congruent : j ≡ i [ZMOD 2 ^ (8 * type.size)]

namespace ScalarType

variable {type : ScalarType} {value : Json} {i j : Int}

theorem cast_wordBound (type : ScalarType) : (type.wordBound : Int) = 2 ^ (8 * type.size) :=
  Int.natCast_pow 2 _

/-- Integers that are congruent are reduced to the same one. -/
theorem integerOf_congr (h : i ≡ j [ZMOD 2 ^ (8 * type.size)]) :
    type.integerOf i = type.integerOf j := by
  rw [← integerOf_emod i, ← integerOf_emod j, cast_wordBound, h]

/-- There is one integer of the type that an integer is reduced to. -/
theorem reduces_iff (integer : type.isFloat = false) :
    type.Reduces i j ↔ j = type.integerOf i := by
  constructor
  · rintro ⟨hleast, hbound, hcongruent⟩
    rw [← integerOf_congr hcongruent, integerOf_of_mem integer hleast hbound]
  · rintro rfl
    obtain ⟨hleast, hbound⟩ := integerOf_mem integer i
    refine ⟨hleast, hbound, ?_⟩
    rw [← cast_wordBound]
    exact emod_integerOf i

/-- The wrap into 64 bits does not show in a slot. -/
theorem integerOf_toInt_ofInt (integer : type.isFloat = false) (i : Int) :
    type.integerOf (Int64.ofInt i).toInt = type.integerOf i := by
  have hbits : 8 * type.size ≤ 64 := by
    cases type <;> decide
  have hwrap : (Int64.ofInt i).toInt ≡ i [ZMOD 2 ^ 64] := by
    rw [Int64.toInt_ofInt]
    exact Int.bmod_emod
  exact integerOf_congr (hwrap.of_dvd (pow_dvd_pow 2 hbits))

/-- A value is taken as the signed word that the integer it stands for reduces to. -/
theorem ofJson_of_truncatesTo (integer : type.isFloat = false) (h : value.TruncatesTo i) :
    type.ofJson value = .ok (.signed (Int64.ofInt i)) := by
  have hfield : ∃ n, value = .number n ∧ n.toField = .ok (Int64.ofInt i) := by
    cases h with
    | integer hinteger => exact ⟨_, rfl, Number.toField_eq_of_integer hinteger⟩
    | real finite least bound =>
      refine ⟨_, rfl, ?_⟩
      rw [Number.toField, if_pos (Binary64.fitsInt64_iff.mpr ⟨finite, least, bound⟩),
        Binary64.truncate_eq_tdiv]
  obtain ⟨n, rfl, hn⟩ := hfield
  rw [ofJson_eq_toField integer, hn]
  rfl

/-- What is written for a value stands for the integer of the type that it is reduced to. -/
theorem integer?_ofOctets_toOctets (integer : type.isFloat = false) (h : value.TruncatesTo i)
    (order : Endian) :
    (type.ofOctets order (type.toOctets order (.signed (Int64.ofInt i)))).toNumber.integer?
      = some (type.integerOf i) := by
  have htaken := ofJson_of_truncatesTo integer h
  rw [ofOctets_toOctets htaken, integer?_ofWord integer (toWord_lt htaken), toWord_signed,
    integerOf_emod, integerOf_toInt_ofInt integer]

end ScalarType

namespace ScalarTag

variable {tag : ScalarTag} {value : Json} {i : Int}

/-- An integer slot takes exactly the values that stand for an integer. -/
theorem accepts_iff_exists_truncatesTo (integer : tag.type.isFloat = false) :
    (Tag.scalar tag).Accepts value ↔ ∃ i, value.TruncatesTo i := by
  constructor
  · intro haccepts
    cases haccepts with
    | scalar hnumber =>
      cases hnumber with
      | float float =>
        rw [integer] at float
        cases float
      | integer hinteger => exact ⟨_, .integer hinteger⟩
      | real finite least bound => exact ⟨_, .real finite least bound⟩
  · rintro ⟨i, h⟩
    cases h with
    | integer hinteger => exact .scalar (.integer hinteger)
    | real finite least bound => exact .scalar (.real finite least bound)

theorem size_add_padding (tag : ScalarTag) :
    tag.type.size + tag.padding = max tag.type.size tag.paddedTo.toNat := by
  unfold padding
  omega

/-- A plan for a scalar writes a slot or nothing. -/
theorem length_octets_plan_le (tag : ScalarTag) (path : Path) (value : Json) :
    ((Tag.scalar tag).plan path value).octets.length ≤ max tag.type.size tag.paddedTo.toNat := by
  unfold Tag.plan
  cases hwrites : (Tag.scalar tag).writes value with
  | error cause => exact Nat.zero_le _
  | ok writes =>
    obtain ⟨scalar, -, rfl⟩ := map_eq_ok_iff.mp hwrites
    rw [Plan.octets, octets_writes, List.length_append, List.length_replicate,
      ScalarType.toOctets, Endian.length_octets, size_add_padding]

/-- The bytes of an integer slot fill it and spell the integer of the type that the value is reduced
to. -/
theorem spells_octets (integer : tag.type.isFloat = false) (h : value.TruncatesTo i) :
    ∃ n, n.integer? = some (tag.type.integerOf i)
      ∧ (Tag.scalar tag).undemanding.Spells (Slot.octets ⟨.scalar tag, value⟩) (.number n)
      ∧ (Slot.octets ⟨.scalar tag, value⟩).length = max tag.type.size tag.paddedTo.toNat := by
  have hwidth : (tag.type.toOctets tag.order (.signed (Int64.ofInt i))).length = tag.type.size :=
    Endian.length_octets ..
  rw [Slot.octets_scalar (ScalarType.ofJson_of_truncatesTo integer h)]
  refine ⟨_, ScalarType.integer?_ofOctets_toOctets integer h tag.order,
    .scalar hwidth (List.length_replicate ..) rfl, ?_⟩
  rw [List.length_append, List.length_replicate, hwidth, size_add_padding]

end ScalarTag

namespace Node

/-- An integer slot takes exactly the values that stand for an integer. It is decoded, wherever it
stands and whatever reference the tag has, to the one integer of its type that is congruent to this
integer, and is consumed as a whole. For every other value the record is at fault and nothing is
written. -/
theorem decode_encode_integer {tag : ScalarTag} (integer : tag.type.isFloat = false)
    (padded : tag.paddedTo.toNat < 2 ^ 53) (value : Json) (capacity : Nat) (order : Endian) :
    ((∃ encoded, ((leaf (.scalar tag)).encode value capacity order).1 = .ok encoded) ↔
        ∃ i, value.TruncatesTo i)
      ∧ (∀ i encoded, value.TruncatesTo i →
          ((leaf (.scalar tag)).encode value capacity order).1 = .ok encoded →
          encoded.bytes.length = max tag.type.size tag.paddedTo.toNat
            ∧ ∃ j n, (∀ k, tag.type.Reduces i k ↔ k = j) ∧ n.integer? = some j
              ∧ ∀ before behind label,
                ((leaf (.scalar tag)).undemanding.decodeRecord ⟨before.length, false, label⟩
                    (before ++ encoded.bytes ++ behind)).1
                  = .ok ⟨some (.number n), before.length + encoded.bytes.length,
                    encoded.bytes.length⟩)
      ∧ ((∀ i, ¬ value.TruncatesTo i) → ∀ path c, ∃ cause,
          (leaf (.scalar tag)).encodeAt path value c = ⟨.error (.record path cause), c, []⟩) := by
  have hwritable : Slot.Writable ⟨.scalar tag, value⟩ ↔ ∃ i, value.TruncatesTo i :=
    Tag.writable_iff.trans (ScalarTag.accepts_iff_exists_truncatesTo integer)
  have hfault : ((leaf (.scalar tag)).plan none .root value).fault = none ↔
      ∃ i, value.TruncatesTo i := Tag.fault_plan_eq_none_iff.trans hwritable
  have hsmall : ((leaf (.scalar tag)).plan none .root value).octets.length ≤ signedBound := by
    have hlength := tag.length_octets_plan_le .root value
    have hsize : tag.type.size ≤ 8 := by
      cases tag.type <;> decide
    rw [plan, signedBound]
    omega
  refine ⟨⟨?_, ?_⟩, fun i encoded hvalue hencoded => ?_, fun hnone path c => ?_⟩
  · rintro ⟨encoded, hencoded⟩
    exact hfault.mp (plan_of_encode_eq_ok hencoded).1
  · intro hvalue
    exact ⟨_, encode_eq_ok (hfault.mpr hvalue) hsmall capacity order⟩
  · obtain ⟨hnone, hbytes, -⟩ := plan_of_encode_eq_ok hencoded
    rw [(covers_plan hnone).octets_eq, slots, List.flatMap_singleton] at hbytes
    obtain ⟨n, hn, hspells, hlength⟩ := ScalarTag.spells_octets integer hvalue
    rw [hbytes]
    exact ⟨hlength, _, n, fun k => ScalarType.reduces_iff integer, hn,
      decodeRecord_of_spells hspells⟩
  · exact encodeAt_of_not_writable (fun h => (hwritable.mp h).elim hnone) path c

/-- A slot of five bytes for a signed number of two, in little-endian order, with a reference. -/
def paddedShort : ScalarTag := ⟨.int16, .little, 5, some ⟨.integer 7, false⟩⟩

/-- The number `-32769.75`. -/
def belowShort : Binary64 := ⟨0xC0E0003800000000⟩

/-- That number loses its fraction and is reduced to the greatest integer of the slot. -/
theorem decode_encode_integer_belowShort :
    (Json.number (.real belowShort)).TruncatesTo (-32769)
      ∧ ∃ n, n.integer? = some 32767
        ∧ ((leaf (.scalar paddedShort)).undemanding.decodeRecord ⟨1, false, ""⟩
            [9, 0xFF, 0x7F, 0, 0, 0, 8]).1 = .ok ⟨some (.number n), 6, 5⟩ := by
  have hinteger : paddedShort.type.isFloat = false := rfl
  have hpadded : paddedShort.paddedTo.toNat < 2 ^ 53 := by decide
  have htruncated : belowShort.scaled.tdiv Binary64.format.one = -32769 := by decide +kernel
  obtain ⟨hfinite, hleast, hbound⟩ :=
    Binary64.fitsInt64_iff.mp (show belowShort.fitsInt64 = true by decide +kernel)
  have hvalue : (Json.number (.real belowShort)).TruncatesTo (-32769) :=
    htruncated ▸ .real hfinite hleast hbound
  have hwritten : ((leaf (.scalar paddedShort)).encode (.number (.real belowShort)) 0
      .big).1.map Encoded.bytes = .ok [0xFF, 0x7F, 0, 0, 0] := eq_ok_of_toOption (by decide +kernel)
  obtain ⟨encoded, hencoded, hbytes⟩ := map_eq_ok_iff.mp hwritten
  have hreduced : paddedShort.type.Reduces (-32769) 32767 := ⟨by decide, by decide, by decide⟩
  obtain ⟨-, hdecoded, -⟩ :=
    decode_encode_integer hinteger hpadded (.number (.real belowShort)) 0 .big
  obtain ⟨-, j, n, hone, hn, hrecord⟩ := hdecoded _ _ hvalue hencoded
  rw [← (hone _).mp hreduced] at hn
  rw [hbytes] at hrecord
  exact ⟨hvalue, n, hn, hrecord [9] [8] ""⟩

end Node

end ByteRecord
