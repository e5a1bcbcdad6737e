import ByteRecord.Decode.Record
import ByteRecord.Proofs.Decode.Matching

/-!
# When a record is decoded

A record is decoded from an offset within the bytes exactly if its schema matches there and, where
the whole rest is demanded, nothing remains behind it.
-/

namespace ByteRecord

namespace Node

/-- When decoding gives a record, and where the record ends. -/
theorem decodeRecord_eq_ok_some_iff {node : Node} {options : DecodeOptions}
    {bytes : List UInt8} {record : Json} {stop consumed : Nat} :
    (node.decodeRecord options bytes).1 = .ok ⟨some record, stop, consumed⟩ ↔
      options.offset ≤ bytes.length
        ∧ ∃ next, (node.decode none ((Reader.ofBytes bytes).advance options.offset)).Matches
            record next
          ∧ (options.wholly = true → next.atEnd = true)
          ∧ stop = next.offset ∧ consumed = next.offset - options.offset := by
  unfold decodeRecord
  by_cases hoffset : bytes.length < options.offset
  · rw [if_pos hoffset]
    constructor
    · intro h
      cases h
    · rintro ⟨hle, -⟩
      omega
  · rw [if_neg hoffset]
    dsimp only
    constructor
    · intro h
      split at h
      · cases h
      · cases h
      · rename_i value hverdict
        split at h
        · cases h
        · rename_i htrailing
          injection h with h
          injection h with hrecord hstop hconsumed
          injection hrecord with hrecord
          refine ⟨Nat.le_of_not_lt hoffset, _, ⟨hverdict.trans (congrArg _ hrecord), rfl⟩, ?_,
            hstop.symm, hconsumed.symm⟩
          intro hwholly
          rw [hwholly, Bool.true_and, Bool.not_eq_true', Bool.not_eq_false] at htrailing
          exact htrailing
    · rintro ⟨-, next, ⟨hverdict, rfl⟩, hwholly, rfl, rfl⟩
      rw [hverdict]
      dsimp only
      rw [if_neg]
      intro htrailing
      rw [Bool.and_eq_true, Bool.not_eq_true'] at htrailing
      rw [hwholly htrailing.1] at htrailing
      cases htrailing.2

/-- A slot that spells a value is decoded to it wherever it stands, and nothing else is consumed. -/
theorem decodeRecord_of_spells {tag : Tag} {bytes : List UInt8} {value : Json}
    (h : tag.Spells bytes value) (before behind : List UInt8) (label : String) :
    ((leaf tag).decodeRecord ⟨before.length, false, label⟩ (before ++ bytes ++ behind)).1
      = .ok ⟨some value, before.length + bytes.length, bytes.length⟩ := by
  have hmatches := Tag.decode_matches_iff.mpr
    ⟨bytes, Reader.passes_advance_ofBytes before bytes behind, h⟩
  refine decodeRecord_eq_ok_some_iff.mpr ⟨?_, _, hmatches, nofun, rfl, ?_⟩
  · rw [List.append_assoc, List.length_append]
    exact Nat.le_add_right _ _
  · exact (Nat.add_sub_cancel_left ..).symm

end Node

end ByteRecord
