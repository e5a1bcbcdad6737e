import ByteRecord.Octets.FieldText

/-!
# Texts of bytes

The texts that fields hold are exactly those whose characters reach no further than U+00FF, and
such a text has as many characters as it has bytes.
-/

namespace ByteRecord

/-- The text has no character beyond U+00FF. -/
def IsFieldText (s : String) : Prop := ∀ c ∈ s.toList, c.toNat ≤ 255

theorem toNat_fieldChar (byte : UInt8) : (fieldChar byte).toNat = byte.toNat := by
  have hvalid : byte.toNat.isValidChar := Or.inl (Nat.lt_trans byte.toNat_lt (by decide))
  rw [fieldChar, Char.ofNat, dif_pos hvalid]
  rfl

theorem fieldByte?_eq_some {c : Char} {byte : UInt8} :
    fieldByte? c = some byte ↔ c = fieldChar byte := by
  constructor
  · intro h
    unfold fieldByte? at h
    split at h
    · rename_i hlow
      injection h with h
      rw [← h, Char.ext_iff, ← UInt32.toNat_inj]
      have hbyte := toNat_fieldChar (UInt8.ofNat c.toNat)
      rw [UInt8.toNat_ofNat', Nat.mod_eq_of_lt hlow] at hbyte
      exact hbyte.symm
    · cases h
  · rintro rfl
    exact fieldByte?_fieldChar byte

theorem length_fieldText (bytes : List UInt8) : (fieldText bytes).length = bytes.length := by
  rw [fieldText, String.length_ofList, List.length_map]

/-- The text of some bytes is a field text. -/
theorem isFieldText_fieldText (bytes : List UInt8) : IsFieldText (fieldText bytes) := by
  intro c hc
  rw [fieldText, String.toList_ofList] at hc
  obtain ⟨byte, -, rfl⟩ := List.mem_map.mp hc
  rw [toNat_fieldChar]
  exact Nat.le_of_lt_succ byte.toNat_lt

/-- The character with the number zero stands for a zero byte. -/
theorem nul_mem_fieldText {bytes : List UInt8} :
    '\x00' ∈ (fieldText bytes).toList ↔ 0 ∈ bytes := by
  have hnul : fieldChar 0 = '\x00' := rfl
  rw [fieldText, String.toList_ofList, ← hnul]
  constructor
  · intro h
    obtain ⟨byte, hbyte, hchar⟩ := List.mem_map.mp h
    have hsame := fieldByte?_fieldChar byte
    rw [hchar, fieldByte?_fieldChar] at hsame
    injection hsame with hsame
    rwa [hsame]
  · exact List.mem_map_of_mem

/-- Characters that have bytes are the characters of these bytes. -/
theorem eq_map_of_mapM {chars : List Char} {bytes : List UInt8}
    (h : chars.mapM fieldByte? = some bytes) : chars = bytes.map fieldChar := by
  induction chars generalizing bytes with
  | nil =>
    injection h with h
    rw [← h]
    rfl
  | cons c rest ih =>
    rw [List.mapM_cons] at h
    obtain ⟨byte, hbyte, h⟩ := Option.bind_eq_some_iff.mp h
    obtain ⟨others, hothers, h⟩ := Option.bind_eq_some_iff.mp h
    injection h with h
    rw [← h, List.map_cons, ← ih hothers, ← fieldByte?_eq_some.mp hbyte]

/-- The bytes of a text are those that it is the text of. -/
theorem fieldBytes?_eq_some {s : String} {bytes : List UInt8} :
    fieldBytes? s = some bytes ↔ s = fieldText bytes := by
  constructor
  · intro h
    rw [fieldText, ← eq_map_of_mapM h, String.ofList_toList]
  · rintro rfl
    exact fieldBytes?_fieldText bytes

/-- Every field text is the text of some bytes. -/
theorem IsFieldText.exists_bytes {s : String} (h : IsFieldText s) :
    ∃ bytes, s = fieldText bytes := by
  have hchar : ∀ c ∈ s.toList, fieldChar (UInt8.ofNat c.toNat) = c := by
    intro c hc
    have hlow : c.toNat < 256 := Nat.lt_succ_of_le (h c hc)
    have hbyte : fieldByte? c = some (UInt8.ofNat c.toNat) := by rw [fieldByte?, if_pos hlow]
    exact (fieldByte?_eq_some.mp hbyte).symm
  refine ⟨s.toList.map fun c => UInt8.ofNat c.toNat, ?_⟩
  have hself : s.toList.map (fieldChar ∘ fun c => UInt8.ofNat c.toNat) = s.toList :=
    (List.map_congr_left hchar).trans (List.map_id _)
  rw [fieldText, List.map_map, hself, String.ofList_toList]

end ByteRecord
