/-!
# Field text

The bytes of a text field are shown one character each, the character of the same number, so a
field text holds characters up to U+00FF only. `fieldText` and `fieldBytes?` convert between bytes
and such texts; `fieldUtf8` and `bytesOfFieldUtf8?` do the same for the UTF-8 encoding of the text,
where each character takes one or two bytes.
-/

namespace ByteRecord

/-- The character of a byte. -/
def fieldChar (byte : UInt8) : Char := Char.ofNat byte.toNat

/-- The byte of a character, for characters up to U+00FF. -/
def fieldByte? (c : Char) : Option UInt8 :=
  if c.toNat < 256 then some (UInt8.ofNat c.toNat) else none

/-- The character of a byte is that of no other byte. -/
theorem fieldByte?_fieldChar (byte : UInt8) : fieldByte? (fieldChar byte) = some byte := by
  have low : byte.toNat < 256 := byte.toNat_lt
  have same : (Char.ofNat byte.toNat).toNat = byte.toNat := by
    have valid : byte.toNat.isValidChar := Or.inl (by omega)
    rw [Char.ofNat, dif_pos valid]
    rfl
  simp [fieldByte?, fieldChar, same, low]

/-- The text with one character for each byte. -/
def fieldText (bytes : List UInt8) : String := String.ofList (bytes.map fieldChar)

/-- The bytes of a text, if each of its characters is that of a byte. -/
def fieldBytes? (s : String) : Option (List UInt8) := s.toList.mapM fieldByte?

/-- The text of some bytes gives the bytes back. -/
theorem fieldBytes?_fieldText (bytes : List UInt8) :
    fieldBytes? (fieldText bytes) = some bytes := by
  rw [fieldBytes?, fieldText, String.toList_ofList]
  induction bytes with
  | nil => rfl
  | cons byte rest ih => simp [fieldByte?_fieldChar, ih]

/-- The UTF-8 encoding of the character of a byte: the byte itself below 0x80, otherwise two
bytes. -/
def charUtf8 (byte : UInt8) : List UInt8 :=
  if byte < 0x80 then [byte] else [(byte >>> 6) ||| 0xC0, (byte &&& 0x3F) ||| 0x80]

/-- The UTF-8 encoding of the text of some bytes. -/
def fieldUtf8 (bytes : List UInt8) : List UInt8 := bytes.flatMap charUtf8

/-- The bytes of a text given in UTF-8, if it is well formed and each of its characters is that of
a byte. The only leading bytes of two-byte characters up to U+00FF are 0xC2 and 0xC3. -/
def bytesOfFieldUtf8? : List UInt8 → Option (List UInt8)
  | [] => some []
  | lead :: rest =>
    if lead < 0x80 then (bytesOfFieldUtf8? rest).map (lead :: ·)
    else if lead ≠ 0xC2 ∧ lead ≠ 0xC3 then none
    else
      match rest with
      | [] => none
      | next :: rest =>
        if next &&& 0xC0 ≠ 0x80 then none
        else (bytesOfFieldUtf8? rest).map (((lead &&& 0x03) <<< 6 ||| (next &&& 0x3F)) :: ·)

end ByteRecord
