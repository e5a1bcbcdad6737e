import ByteRecord.Proofs.Cursor.Decoding
import ByteRecord.Proofs.Decode.Relocation
import ByteRecord.Schema.Compile

/-!
# Decoding a record with a cursor

`Node.decodeRecordAt` decodes one record with a cursor, which seeks the offset first as it seeks every
position that it goes back to. As long as floating-point numbers count all of the bytes it comes to
what `Node.decodeRecord` comes to, and what holds of readers holds of cursors. Of more than two to the
53 bytes it need not: there the end of the data and the position of its last byte are one number.
-/

namespace ByteRecord

namespace Cursor

/-- A cursor over some bytes reads on from where it stands in them. -/
theorem reader_moveTo_ofBytes (bytes : List UInt8) (order : Endian) (growable : Bool)
    (position : Nat) :
    ((ofBytes bytes order growable).moveTo position).reader
      = (Reader.ofBytes bytes).advance position := by
  rw [reader, contents, moveTo, ofBytes, List.take_length, Reader.ofBytes, Reader.advance,
    Nat.zero_add]

/-- A position that floating-point numbers do not tell from the end of the contents is taken for the
end. -/
theorem seek_of_rounded {c : Cursor} {position : Nat} (positive : 0 < position)
    (small : position ≤ integerBound)
    (rounded : (Binary64.ofNat position).less (Binary64.ofNat c.length) = false) :
    c.seek (Binary64.ofNat position) = c.moveTo c.length := by
  have represents := Binary64.represents_ofNat small
  have hahead : ¬ (position * Binary64.format.one : Int) ≤ 0 := by
    have hproduct := Nat.mul_pos positive Binary64.format.one_pos
    omega
  rw [seek, clampedPosition, represents.finite, represents.scaled_eq, decide_eq_false hahead, rounded]
  rfl

end Cursor

/-- Words that count upwards differ as the numbers do. -/
theorem toNat_ofNat_sub {first second : Nat} (hle : first ≤ second) (hword : second < wordCount) :
    (UInt64.ofNat second - UInt64.ofNat first).toNat = second - first := by
  have hsecond : (UInt64.ofNat second).toNat = second := UInt64.toNat_ofNat_of_lt' hword
  have hfirst : (UInt64.ofNat first).toNat = first :=
    UInt64.toNat_ofNat_of_lt' (Nat.lt_of_le_of_lt hle hword)
  have horder : UInt64.ofNat first ≤ UInt64.ofNat second := by
    rw [UInt64.le_iff_toNat_le, hfirst, hsecond]
    exact hle
  rw [UInt64.toNat_sub_of_le _ _ horder, hfirst, hsecond]

namespace Node

/-- Decodes a record with a cursor. How many bytes it takes is a difference of words. There is no
result if decoding is given up. -/
def decodeRecordAt (node : Node) (options : DecodeOptions) (bytes : List UInt8) :
    Option (Except Error Decoded) :=
  if bytes.length < options.offset then
    some (.error (.bounds (.decodeOffset options.offset bytes.length)))
  else
    match node.decodeAt none
        ((Cursor.ofBytes bytes .big false).seek (Binary64.ofNat options.offset)) with
    | none => none
    | some (.failed cause, _) => some (.error cause)
    | some (.noMatch, _) => some (.ok (.none options.offset))
    | some (.matched record, c) =>
      if options.wholly && !c.atEnd then some (.ok (.none options.offset))
      else
        let consumed := UInt64.ofNat c.position - UInt64.ofNat options.offset
        some (.ok ⟨some record, c.position, consumed.toNat⟩)

variable {node : Node} {options : DecodeOptions} {bytes suffix : List UInt8} {offset : Nat}

/-- The cursor over some bytes is sought and moved as the reader over them is. -/
theorem decodeAt_seek (inside : offset ≤ bytes.length) (small : bytes.length ≤ integerBound) :
    node.decodeAt none ((Cursor.ofBytes bytes .big false).seek (Binary64.ofNat offset))
      = some ((node.decode none ((Reader.ofBytes bytes).advance offset)).verdict,
        (Cursor.ofBytes bytes .big false).moveTo
          (node.decode none ((Reader.ofBytes bytes).advance offset)).reader.offset) := by
  have hwithin : ((Cursor.ofBytes bytes .big false).moveTo offset).Within := ⟨inside, Nat.le_refl _⟩
  rw [Cursor.seek_ofNat inside small, (node.tracks none).attempt_eq _ hwithin small, Cursor.decoded,
    Cursor.reader_moveTo_ofBytes]
  rfl

/-- Decoding ends behind the offset and within the bytes, at their end exactly if the cursor is. -/
theorem decode_ends (inside : offset ≤ bytes.length) {o : Outcome Json}
    (h : node.decode none ((Reader.ofBytes bytes).advance offset) = o) :
    offset ≤ o.reader.offset ∧ o.reader.offset ≤ bytes.length
      ∧ ((Cursor.ofBytes bytes .big false).moveTo o.reader.offset).atEnd = o.reader.atEnd := by
  have hwithin : ((Cursor.ofBytes bytes .big false).moveTo offset).Within := ⟨inside, Nat.le_refl _⟩
  obtain ⟨passed, hpass⟩ := (node.tracks none).ahead
    ((Cursor.ofBytes bytes .big false).moveTo offset).reader
  have hatEnd := (hwithin.moveTo hpass).atEnd_reader
  have hbehind := hwithin.offset_le hpass
  rw [Cursor.reader_moveTo hpass] at hatEnd
  rw [Cursor.reader_moveTo_ofBytes, h] at hpass hatEnd hbehind
  have hstart : ((Reader.ofBytes bytes).advance offset).offset = offset := Nat.zero_add _
  refine ⟨?_, hbehind, hatEnd.symm⟩
  rw [hpass.offset, hstart]
  exact Nat.le_add_right _ _

/-- A record is decoded with a cursor as with a reader, as long as floating-point numbers count all of
the bytes. -/
theorem decodeRecordAt_eq (small : bytes.length ≤ integerBound) :
    node.decodeRecordAt options bytes = some (node.decodeRecord options bytes).1 := by
  unfold decodeRecordAt decodeRecord
  by_cases hoffset : bytes.length < options.offset
  · rw [if_pos hoffset, if_pos hoffset]
  have hinside : options.offset ≤ bytes.length := Nat.le_of_not_lt hoffset
  rw [if_neg hoffset, if_neg hoffset, decodeAt_seek hinside small]
  cases ho : node.decode none ((Reader.ofBytes bytes).advance options.offset) with
  | mk verdict place trace =>
    obtain ⟨hahead, hbehind, hatEnd⟩ := decode_ends hinside ho
    dsimp only at hahead hbehind hatEnd ⊢
    cases verdict with
    | failed cause => rfl
    | noMatch => rfl
    | matched record =>
      dsimp only
      rw [hatEnd]
      split
      · rfl
      · have hword : place.offset < wordCount := (hbehind.trans small).trans_lt (by decide)
        rw [← toNat_ofNat_sub hahead hword]
        rfl

/-- Where no length looks at the end of the data, bytes that follow change neither a record nor that
there is none, as long as floating-point numbers count all of the bytes. -/
theorem decodeRecordAt_append (known : node.CountsKnown) (anywhere : options.wholly = false)
    (small : (bytes ++ suffix).length ≤ integerBound) {result : Decoded}
    (h : node.decodeRecordAt options bytes = some (.ok result)) :
    node.decodeRecordAt options (bytes ++ suffix) = some (.ok result) := by
  have hfewer : bytes.length ≤ integerBound := by
    rw [List.length_append] at small
    omega
  rw [decodeRecordAt_eq hfewer] at h
  rw [decodeRecordAt_eq small, decodeRecord_append known anywhere (Option.some.inj h) suffix]

/-- A kind of two alternatives and two texts. -/
def headNode : Node :=
  struct [
    ("kind", branch [leaf (.scalar ⟨.uint16, .big, 0, some ⟨.integer 1, false⟩⟩),
      leaf (.scalar ⟨.uint8, .big, 0, none⟩)]),
    ("texts", array (leaf (.cstring ⟨0, none⟩)) (.literal 2))]

theorem countsKnown_headNode : headNode.CountsKnown := by
  refine .struct trivial ?_
  simp only [List.forall_mem_cons]
  refine ⟨.branch trivial ?_, .array trivial (.leaf trivial), List.forall_mem_nil _⟩
  simp only [List.forall_mem_cons]
  exact ⟨.leaf trivial, .leaf trivial, List.forall_mem_nil _⟩

/-- Its record in front of two other bytes, the first of which could end a text. -/
theorem decodeRecordAt_append_head :
    headNode.decodeRecordAt ⟨1, false, ""⟩ ([9, 2, 7, 0x61, 0, 0] ++ [0, 9])
      = some (.ok ⟨some (.object [("kind", .number (.unsigned 2)),
          ("texts", .array [.string "\x07a", .string ""])]), 6, 5⟩) := by
  have hfirst : (headNode.decodeRecord ⟨1, false, ""⟩ [9, 2, 7, 0x61, 0, 0]).1
      = .ok ⟨some (.object [("kind", .number (.unsigned 2)),
          ("texts", .array [.string "\x07a", .string ""])]), 6, 5⟩ :=
    eq_ok_of_toOption (by decide +kernel)
  refine decodeRecordAt_append countsKnown_headNode rfl (by decide) ?_
  rw [decodeRecordAt_eq (by decide), hfirst]

/-- A text that is there is decoded whatever it is, if nothing is demanded of it. -/
theorem decodeAt_text {scope : Scope} {c : Cursor} {width : UInt64}
    (there : width.toNat ≤ c.reader.remaining) :
    decodeAt scope (leaf (.string ⟨width, none⟩)) c
      = some (.matched (.string (fieldText (c.reader.rest.take width.toNat))),
        c.moveTo (c.position + width.toNat)) := by
  rw [decodeAt, Tag.decodeAt, Attempt.ofRead, Cursor.on_reading, Reader.fixedText, Reader.take,
    if_pos there]
  rfl

/-- A choice whose first alternative takes no bytes stays where seeking its start leads. -/
theorem decodeAt_choice {scope : Scope} {c : Cursor} {start : Nat} (rest : List Node)
    (back : c.seek (Binary64.ofNat c.position) = c.moveTo start) :
    decodeAt scope (branch (leaf (.string ⟨0, none⟩) :: rest)) c
      = some (.matched (.string (fieldText [])), c.moveTo start) := by
  have hnone : (0 : UInt64).toNat = 0 := rfl
  rw [decodeAt, decodeFirstAt, back, decodeAt_text (hnone ▸ Nat.zero_le _), hnone, List.take_zero,
    Nat.add_zero]
  rfl

/-- A text of a given width and a choice behind it that may take no bytes. -/
def textAndChoice (width : UInt64) : Node :=
  struct [("text", leaf (.string ⟨width, none⟩)),
    ("choice", branch [leaf (.string ⟨0, none⟩), leaf (.scalar ⟨.uint8, .big, 0, none⟩)])]

theorem countsKnown_textAndChoice (width : UInt64) : (textAndChoice width).CountsKnown := by
  refine .struct trivial ?_
  simp only [List.forall_mem_cons]
  refine ⟨.leaf trivial, .branch trivial ?_, List.forall_mem_nil _⟩
  simp only [List.forall_mem_cons]
  exact ⟨.leaf trivial, .leaf trivial, List.forall_mem_nil _⟩

/-- The record ends where seeking the end of the text leads. -/
theorem decodeAt_textAndChoice {c : Cursor} {width : UInt64} {stop : Nat}
    (there : width.toNat ≤ c.reader.remaining)
    (back : (c.moveTo (c.position + width.toNat)).seek (Binary64.ofNat (c.position + width.toNat))
      = c.moveTo stop) :
    decodeAt none (textAndChoice width) c
      = some (.matched (.object [("text", .string (fieldText (c.reader.rest.take width.toNat))),
          ("choice", .string (fieldText []))]), c.moveTo stop) := by
  have hchoice := fun scope => @decodeAt_choice scope _ stop
    [leaf (.scalar ⟨.uint8, .big, 0, none⟩)] back
  rw [textAndChoice, decodeAt, decodeFieldsAt, decodeAt_text there, Attempt.andThen_matched,
    decodeFieldsAt, hchoice, Attempt.andThen_matched, decodeFieldsAt, Attempt.map,
    Attempt.andThen_matched]
  rfl

/-- If the length of the data is rounded to the width of the text, the choice starts at the end of the
data, and so the record ends there. -/
theorem decodeRecordAt_textAndChoice {width : UInt64} (positive : 0 < width.toNat)
    (small : width.toNat ≤ integerBound) (there : width.toNat ≤ bytes.length)
    (rounded : (Binary64.ofNat width.toNat).less (Binary64.ofNat bytes.length) = false)
    (word : bytes.length < wordCount) :
    (textAndChoice width).decodeRecordAt ⟨0, false, ""⟩ bytes
      = some (.ok ⟨some (.object [("text", .string (fieldText (bytes.take width.toNat))),
          ("choice", .string (fieldText []))]), bytes.length, bytes.length⟩) := by
  have hstart : (Cursor.ofBytes bytes .big false).seek (Binary64.ofNat 0)
      = Cursor.ofBytes bytes .big false := by
    rw [Cursor.seek, Cursor.clampedPosition, if_pos (by decide +kernel)]
    rfl
  have hreader : (Cursor.ofBytes bytes .big false).reader = Reader.ofBytes bytes :=
    Cursor.reader_moveTo_ofBytes bytes .big false 0
  have hposition : (Cursor.ofBytes bytes .big false).position + width.toNat = width.toNat :=
    Nat.zero_add _
  have hback : ((Cursor.ofBytes bytes .big false).moveTo width.toNat).seek
      (Binary64.ofNat width.toNat) = (Cursor.ofBytes bytes .big false).moveTo bytes.length :=
    Cursor.seek_of_rounded positive small rounded
  have hdecode := @decodeAt_textAndChoice (Cursor.ofBytes bytes .big false) width bytes.length
    (by rw [hreader]; exact there) (by rw [hposition]; exact hback)
  rw [hreader] at hdecode
  have hconsumed : (UInt64.ofNat bytes.length - UInt64.ofNat 0).toNat = bytes.length :=
    toNat_ofNat_sub (Nat.zero_le _) word
  rw [decodeRecordAt, if_neg (Nat.not_lt_zero _), hstart, hdecode]
  dsimp only
  rw [Bool.false_and, if_neg Bool.false_ne_true]
  exact congrArg (fun consumed => some (Except.ok (Decoded.mk _ _ consumed))) hconsumed

/-- Describes a text of two to the 53 bytes and a choice behind it that takes none. -/
def vastTextDescription : Json :=
  .object [("text", .string "string:9007199254740992"),
    ("choice", .array [.string "string:0", .string "uint8"])]

/-- Describes numbers up to one byte before the end of the data, as a count that no signed word
holds. -/
def wrappedCountDescription : Json :=
  .array [.string "uint8", .number (.unsigned 18446744073709551615)]

/-- The schema of that description. -/
def wrappedCountNode : Node := array (leaf (.scalar ⟨.uint8, .big, 0, none⟩)) (.fromEnd (-1))

/-- One byte more moves the end of a record in two ways. Behind two to the 53 bytes the position where
the choice starts is rounded to the end of the data. And a count that no signed word holds has become
a distance from the end of the data. -/
theorem decodeRecordAt_append_moves :
    (compile vastTextDescription = .ok (textAndChoice 9007199254740992)
      ∧ (textAndChoice 9007199254740992).CountsKnown
      ∧ ∃ record,
        (textAndChoice 9007199254740992).decodeRecordAt ⟨0, false, ""⟩
            (List.replicate 9007199254740992 0)
          = some (.ok ⟨some record, 9007199254740992, 9007199254740992⟩)
        ∧ (textAndChoice 9007199254740992).decodeRecordAt ⟨0, false, ""⟩
            (List.replicate 9007199254740992 0 ++ [0])
          = some (.ok ⟨some record, 9007199254740993, 9007199254740993⟩))
    ∧ compile wrappedCountDescription = .ok wrappedCountNode
      ∧ wrappedCountNode.decodeRecordAt ⟨0, false, ""⟩ [1, 2, 3]
        = some (.ok ⟨some (.array [.number (.unsigned 1), .number (.unsigned 2)]), 2, 2⟩)
      ∧ wrappedCountNode.decodeRecordAt ⟨0, false, ""⟩ [1, 2, 3, 4]
        = some (.ok ⟨some (.array [.number (.unsigned 1), .number (.unsigned 2),
            .number (.unsigned 3)]), 3, 3⟩) := by
  have hlength : (List.replicate 9007199254740992 (0 : UInt8)).length = 9007199254740992 :=
    List.length_replicate
  have hlonger : (List.replicate 9007199254740992 (0 : UInt8) ++ [0]).length = 9007199254740993 := by
    rw [List.length_append, hlength]
    rfl
  have hfirst := @decodeRecordAt_textAndChoice (List.replicate 9007199254740992 0) 9007199254740992
    (by decide) (by decide) (by rw [hlength]; decide) (by rw [hlength]; decide +kernel)
    (by rw [hlength]; decide)
  have hsecond := @decodeRecordAt_textAndChoice (List.replicate 9007199254740992 0 ++ [0])
    9007199254740992 (by decide) (by decide) (by rw [hlonger]; decide)
    (by rw [hlonger]; decide +kernel) (by rw [hlonger]; decide)
  rw [hlength] at hfirst
  rw [hlonger, List.take_append_of_le_length (by rw [hlength]; decide)] at hsecond
  refine ⟨⟨rfl, countsKnown_textAndChoice _, _, hfirst, hsecond⟩, rfl, ?_, ?_⟩
  · rw [decodeRecordAt_eq (by decide)]
    exact congrArg some (eq_ok_of_toOption (by decide +kernel))
  · rw [decodeRecordAt_eq (by decide)]
    exact congrArg some (eq_ok_of_toOption (by decide +kernel))

end Node

end ByteRecord
