import ByteRecord.Proofs.Octets.Text

/-!
# Texts of bytes in UTF-8

A text goes to the bytes of a field and back in its UTF-8 form, where a byte from 0x80 on takes two
bytes. The masks of these two bytes are read as sums, which invert each other. The bytes that are read
as a text's bytes are exactly those of well-formed UTF-8 whose characters reach no further than U+00FF,
so reading them gives what reading the text itself gives.
-/

namespace ByteRecord

/-- The first of the two bytes of a character from U+0080 on. -/
def leadByte (byte : UInt8) : UInt8 := (byte >>> 6) ||| 0xC0

/-- The second of the two bytes of a character from U+0080 on. -/
def nextByte (byte : UInt8) : UInt8 := (byte &&& 0x3F) ||| 0x80

/-- The byte that is read from two bytes. -/
def joinedByte (lead next : UInt8) : UInt8 := (lead &&& 0x03) <<< 6 ||| (next &&& 0x3F)

variable {byte lead next : UInt8} {utf8 rest bytes : List UInt8} {s : String}

/-- The lowest six bits of a byte. -/
theorem toNat_sixBits (byte : UInt8) : (byte &&& 0x3F).toNat = byte.toNat % 64 := by
  rw [UInt8.toNat_and]
  exact Nat.and_two_pow_sub_one_eq_mod _ 6

/-- The first byte holds the bits above the lowest six. -/
theorem toNat_leadByte (byte : UInt8) : (leadByte byte).toNat = 192 + byte.toNat / 64 := by
  have hlow : byte.toNat / 64 < 2 ^ 6 :=
    Nat.div_lt_of_lt_mul (Nat.lt_trans byte.toNat_lt (by decide))
  have hshift : (byte >>> 6).toNat = byte.toNat / 64 :=
    (UInt8.toNat_shiftRight ..).trans (Nat.shiftRight_eq_div_pow _ 6)
  calc (leadByte byte).toNat
      = byte.toNat / 64 ||| 192 := by
        rw [leadByte, UInt8.toNat_or, hshift]
        rfl
    _ = 2 ^ 6 * 3 ||| byte.toNat / 64 := Nat.or_comm _ _
    _ = 2 ^ 6 * 3 + byte.toNat / 64 := (Nat.two_pow_add_eq_or_of_lt hlow 3).symm

/-- The second byte holds the lowest six bits. -/
theorem toNat_nextByte (byte : UInt8) : (nextByte byte).toNat = 128 + byte.toNat % 64 := by
  have hlow : byte.toNat % 64 < 2 ^ 6 := Nat.mod_lt _ (by decide)
  calc (nextByte byte).toNat
      = byte.toNat % 64 ||| 128 := by
        rw [nextByte, UInt8.toNat_or, toNat_sixBits]
        rfl
    _ = 2 ^ 6 * 2 ||| byte.toNat % 64 := Nat.or_comm _ _
    _ = 2 ^ 6 * 2 + byte.toNat % 64 := (Nat.two_pow_add_eq_or_of_lt hlow 2).symm

/-- A byte is put together from the lowest two bits of the first byte and the lowest six of the
second. -/
theorem toNat_joinedByte (lead next : UInt8) :
    (joinedByte lead next).toNat = 64 * (lead.toNat % 4) + next.toNat % 64 := by
  have hlow : next.toNat % 64 < 2 ^ 6 := Nat.mod_lt _ (by decide)
  have hmask : (lead &&& 0x03).toNat = lead.toNat % 4 := by
    rw [UInt8.toNat_and]
    exact Nat.and_two_pow_sub_one_eq_mod _ 2
  have hhigh : ((lead &&& 0x03) <<< 6).toNat = 2 ^ 6 * (lead.toNat % 4) := by
    rw [UInt8.toNat_shiftLeft, hmask, Nat.shiftLeft_eq]
    show lead.toNat % 4 * 64 % 256 = 64 * (lead.toNat % 4)
    omega
  rw [joinedByte, UInt8.toNat_or, hhigh, toNat_sixBits]
  exact (Nat.two_pow_add_eq_or_of_lt hlow _).symm

/-- The bytes that may stand second are those from 0x80 to 0xBF. -/
theorem isNext_iff : next &&& 0xC0 = 0x80 ↔ next.toNat / 64 = 2 := by
  have hbyte := next.toNat_lt
  have hhigh : (next &&& 0xC0).toNat / 64 = next.toNat / 64 := by
    calc (next.toNat &&& 192) / 2 ^ 6
        = next.toNat / 2 ^ 6 &&& 2 ^ 2 - 1 := Nat.and_div_two_pow
      _ = next.toNat / 2 ^ 6 % 2 ^ 2 := Nat.and_two_pow_sub_one_eq_mod _ 2
      _ = next.toNat / 64 := Nat.mod_eq_of_lt (Nat.div_lt_of_lt_mul hbyte)
  have hlow : (next &&& 0xC0).toNat % 64 = 0 := by
    calc (next.toNat &&& 192) % 2 ^ 6
        = next.toNat % 2 ^ 6 &&& 0 := Nat.and_mod_two_pow
      _ = 0 := Nat.and_zero _
  rw [← UInt8.toNat_inj]
  show (next &&& 0xC0).toNat = 128 ↔ next.toNat / 64 = 2
  omega

theorem lt_0x80_iff : byte < 0x80 ↔ byte.toNat < 128 := UInt8.lt_iff_toNat_lt

theorem charUtf8_of_lt (h : byte < 0x80) : charUtf8 byte = [byte] := if_pos h

theorem charUtf8_of_not_lt (h : ¬ byte < 0x80) :
    charUtf8 byte = [leadByte byte, nextByte byte] := if_neg h

/-- The characters of bytes are encoded as text is encoded. -/
theorem utf8EncodeChar_fieldChar (byte : UInt8) :
    String.utf8EncodeChar (fieldChar byte) = charUtf8 byte := by
  have hbyte := byte.toNat_lt
  have hchar : (fieldChar byte).val.toNat = byte.toNat := toNat_fieldChar byte
  rw [String.utf8EncodeChar, hchar]
  by_cases hlow : byte < 0x80
  · have hascii : byte.toNat ≤ 127 := Nat.le_of_lt_succ (lt_0x80_iff.mp hlow)
    rw [charUtf8_of_lt hlow, if_pos hascii, UInt8.ofNat_toNat]
  · have hhigh : ¬ byte.toNat ≤ 127 := fun h => hlow (lt_0x80_iff.mpr (Nat.lt_succ_of_le h))
    have hlead : UInt8.ofNat (byte.toNat / 64 % 32 + 192) = leadByte byte := by
      rw [← UInt8.toNat_inj, toNat_leadByte, UInt8.toNat_ofNat']
      omega
    have hnext : UInt8.ofNat (byte.toNat % 64 + 128) = nextByte byte := by
      rw [← UInt8.toNat_inj, toNat_nextByte, UInt8.toNat_ofNat']
      omega
    rw [charUtf8_of_not_lt hlow, if_neg hhigh, if_pos (by omega), hlead, hnext]

/-- The UTF-8 form of bytes is that of their text. -/
theorem toByteArray_fieldText (bytes : List UInt8) :
    (fieldText bytes).toByteArray = (fieldUtf8 bytes).toByteArray := by
  have hchars : (bytes.map fieldChar).flatMap String.utf8EncodeChar = fieldUtf8 bytes := by
    rw [List.flatMap_map, funext utf8EncodeChar_fieldChar, fieldUtf8]
  rw [fieldText, String.toByteArray_ofList, List.utf8Encode, hchars]

/-- A byte below 0x80 is read as itself. -/
theorem bytesOfFieldUtf8?_cons (h : lead < 0x80) :
    bytesOfFieldUtf8? (lead :: rest) = (bytesOfFieldUtf8? rest).map (lead :: ·) := by
  cases rest with
  | nil => exact if_pos h
  | cons next rest => exact if_pos h

/-- Two bytes are read as one. -/
theorem bytesOfFieldUtf8?_cons_cons (hlead : lead = 0xC2 ∨ lead = 0xC3)
    (hnext : next &&& 0xC0 = 0x80) :
    bytesOfFieldUtf8? (lead :: next :: rest)
      = (bytesOfFieldUtf8? rest).map (joinedByte lead next :: ·) := by
  have hhigh : ¬ lead < 0x80 := by
    rcases hlead with rfl | rfl <;> decide
  have hpair : ¬ (lead ≠ 0xC2 ∧ lead ≠ 0xC3) := fun h => hlead.elim h.1 h.2
  rw [bytesOfFieldUtf8?, if_neg hhigh, if_neg hpair, if_neg (not_not_intro hnext)]
  rfl

/-- The encoded character of a byte is read as that byte. -/
theorem bytesOfFieldUtf8?_charUtf8_append (byte : UInt8) (rest : List UInt8) :
    bytesOfFieldUtf8? (charUtf8 byte ++ rest) = (bytesOfFieldUtf8? rest).map (byte :: ·) := by
  have hbyte := byte.toNat_lt
  by_cases hlow : byte < 0x80
  · rw [charUtf8_of_lt hlow, List.singleton_append, bytesOfFieldUtf8?_cons hlow]
  · have hhigh : ¬ byte.toNat < 128 := fun h => hlow (lt_0x80_iff.mpr h)
    have hlead : leadByte byte = 0xC2 ∨ leadByte byte = 0xC3 := by
      rw [← UInt8.toNat_inj, ← UInt8.toNat_inj, toNat_leadByte]
      show 192 + byte.toNat / 64 = 194 ∨ 192 + byte.toNat / 64 = 195
      omega
    have hnext : nextByte byte &&& 0xC0 = 0x80 := by
      rw [isNext_iff, toNat_nextByte]
      omega
    have hjoined : joinedByte (leadByte byte) (nextByte byte) = byte := by
      rw [← UInt8.toNat_inj, toNat_joinedByte, toNat_leadByte, toNat_nextByte]
      omega
    rw [charUtf8_of_not_lt hlow, List.cons_append, List.singleton_append,
      bytesOfFieldUtf8?_cons_cons hlead hnext, hjoined]

/-- Two bytes that are read as one are its encoded character. -/
theorem charUtf8_joinedByte (hlead : lead = 0xC2 ∨ lead = 0xC3) (hnext : next &&& 0xC0 = 0x80) :
    charUtf8 (joinedByte lead next) = [lead, next] := by
  have hpair : lead.toNat = 194 ∨ lead.toNat = 195 :=
    hlead.imp (congrArg UInt8.toNat) (congrArg UInt8.toNat)
  have hsecond := isNext_iff.mp hnext
  have hjoined := toNat_joinedByte lead next
  have hhigh : ¬ joinedByte lead next < 0x80 := by
    rw [lt_0x80_iff]
    omega
  have hfirst : leadByte (joinedByte lead next) = lead := by
    rw [← UInt8.toNat_inj, toNat_leadByte]
    omega
  have hlast : nextByte (joinedByte lead next) = next := by
    rw [← UInt8.toNat_inj, toNat_nextByte]
    omega
  rw [charUtf8_of_not_lt hhigh, hfirst, hlast]

/-- Bytes are read from their UTF-8 form, and from no other. -/
theorem bytesOfFieldUtf8?_eq_some_iff :
    bytesOfFieldUtf8? utf8 = some bytes ↔ fieldUtf8 bytes = utf8 := by
  constructor
  · intro h
    fun_induction bytesOfFieldUtf8? utf8 generalizing bytes with
    | case1 =>
      rw [← Option.some.inj h]
      rfl
    | case2 lead rest hlow ih =>
      obtain ⟨others, hothers, rfl⟩ := Option.map_eq_some_iff.mp h
      rw [fieldUtf8, List.flatMap_cons, charUtf8_of_lt hlow, ← fieldUtf8, ih hothers]
      rfl
    -- A stray byte, a text that ends within a character, and a second byte that is none.
    | case3 => cases h
    | case4 => cases h
    | case5 => cases h
    | case6 lead hhigh hpair next rest hnext ih =>
      obtain ⟨others, hothers, rfl⟩ := Option.map_eq_some_iff.mp h
      have hlead : lead = 0xC2 ∨ lead = 0xC3 := Decidable.or_iff_not_not_and_not.mpr hpair
      have hchar := charUtf8_joinedByte hlead (Decidable.not_not.mp hnext)
      rw [joinedByte] at hchar
      rw [fieldUtf8, List.flatMap_cons, hchar, ← fieldUtf8, ih hothers]
      rfl
  · rintro rfl
    induction bytes with
    | nil => rfl
    | cons byte rest ih =>
      rw [fieldUtf8, List.flatMap_cons, bytesOfFieldUtf8?_charUtf8_append, ← fieldUtf8, ih]
      rfl

/-- Reading the UTF-8 form of a text gives what reading the text gives. -/
theorem bytesOfFieldUtf8?_eq_fieldBytes? (h : s.toByteArray = utf8.toByteArray) :
    bytesOfFieldUtf8? utf8 = fieldBytes? s := by
  refine Option.ext fun bytes => ?_
  rw [bytesOfFieldUtf8?_eq_some_iff, fieldBytes?_eq_some, ← List.toByteArray_inj,
    ← toByteArray_fieldText, ← h, String.toByteArray_inj, eq_comm]

/-- Bytes are read back from their UTF-8 form. Bytes are read exactly from well-formed UTF-8 of
characters up to U+00FF, one for each character, and it is their UTF-8 form. -/
theorem bytesOfFieldUtf8?_spec (utf8 bytes : List UInt8) :
    bytesOfFieldUtf8? (fieldUtf8 bytes) = some bytes
      ∧ ((∃ read, bytesOfFieldUtf8? utf8 = some read) ↔
        ∃ s : String, s.toByteArray = utf8.toByteArray ∧ IsFieldText s)
      ∧ (bytesOfFieldUtf8? utf8 = some bytes →
        fieldUtf8 bytes = utf8
          ∧ ∀ s : String, s.toByteArray = utf8.toByteArray → s.length = bytes.length) := by
  refine ⟨bytesOfFieldUtf8?_eq_some_iff.mpr rfl, ⟨?_, ?_⟩, fun h => ⟨?_, fun s hs => ?_⟩⟩
  · rintro ⟨read, h⟩
    refine ⟨fieldText read, ?_, isFieldText_fieldText read⟩
    rw [toByteArray_fieldText, bytesOfFieldUtf8?_eq_some_iff.mp h]
  · rintro ⟨s, hs, htext⟩
    obtain ⟨read, rfl⟩ := htext.exists_bytes
    exact ⟨read, (bytesOfFieldUtf8?_eq_fieldBytes? hs).trans (fieldBytes?_fieldText read)⟩
  · exact bytesOfFieldUtf8?_eq_some_iff.mp h
  · rw [bytesOfFieldUtf8?_eq_fieldBytes? hs] at h
    rw [fieldBytes?_eq_some.mp h, length_fieldText]

/-- The least and the greatest byte that take two bytes are read from a text of three characters. -/
theorem bytesOfFieldUtf8?_threeChars :
    bytesOfFieldUtf8? [0xC2, 0x80, 0x41, 0xC3, 0xBF] = some [0x80, 0x41, 0xFF]
      ∧ fieldUtf8 [0x80, 0x41, 0xFF] = [0xC2, 0x80, 0x41, 0xC3, 0xBF]
      ∧ "\u0080A\u00FF".length = [0x80, 0x41, 0xFF].length := by
  have hread : bytesOfFieldUtf8? [0xC2, 0x80, 0x41, 0xC3, 0xBF] = some [0x80, 0x41, 0xFF] := by
    decide
  obtain ⟨hutf8, hlength⟩ := (bytesOfFieldUtf8?_spec _ _).2.2 hread
  exact ⟨hread, hutf8, hlength _ (by decide)⟩

/-- An overlong character, a character beyond U+00FF, one that the text cuts off, a second byte that is
none and a second byte without a first are read as no bytes. -/
example : [[0xC1, 0x81], [0xC4, 0x80], [0x41, 0xC3], [0xC3, 0x41], [0x80]].map bytesOfFieldUtf8?
    = List.replicate 5 none := by decide

end ByteRecord
