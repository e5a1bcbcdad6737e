import ByteRecord.Proofs.Cursor.Invariant
import ByteRecord.Proofs.Encode.Writing

/-!
# Encoding into other bytes

Encoding at an offset puts the bytes there that encoding on its own gives, and nothing else. Whether
there is room is decided by these bytes and the buffer alone: growing in the middle of a record and
bytes that are there already do not matter. An encoding that fails has put down some bytes from the
offset on, up to where the cursor then stands.
-/

namespace ByteRecord.Node

variable {node : Node} {record : Json} {c : Cursor} {offset : Nat}

/-- As long as floating-point numbers count the contents exactly, encoding at an offset is to seek it
first. -/
theorem encodeInto_eq_seek (reached : offset ≤ c.length) (small : c.length ≤ integerBound) :
    node.encodeInto record c offset
      = node.encodeAt .root record (c.seek (Binary64.ofNat offset)) := by
  rw [encodeInto, if_neg (Nat.not_lt.mpr reached), Cursor.seek_ofNat reached small]

/-- Encoding where a cursor stands writes bytes one behind the other. If it succeeds these are the
bytes of the plan, and how many they are is the answer. -/
theorem encodeAt_wrote (within : c.Within) (path : Path) :
    ∃ done, c.Wrote done (node.encodeAt path record c).cursor
      ∧ ∀ written, (node.encodeAt path record c).result = .ok written →
          (node.plan none path record).fault = none
            ∧ done = (node.plan none path record).octets ∧ written = done.length := by
  unfold encodeAt
  cases hexecute : (Cursor.execute (node.plan none path record)).on c with
  | mk result last =>
    obtain ⟨done, hwrote, hall⟩ := within.execute hexecute
    cases result with
    | error cause => exact ⟨done, hwrote, fun written hwritten => by cases hwritten⟩
    | ok =>
      obtain ⟨hfault, hdone⟩ := hall rfl
      refine ⟨done, hwrote, fun written hwritten => ⟨hfault, hdone, ?_⟩⟩
      injection hwritten with hwritten
      rw [← hwritten, hwrote.position_eq, Nat.add_sub_cancel_left]

/-- A plan without a fault that there is room for is encoded. -/
theorem exists_encodeAt (within : c.Within) {path : Path}
    (hfault : (node.plan none path record).fault = none)
    (hroom : c.growable = true
      ∨ c.position + (node.plan none path record).octets.length ≤ c.capacity)
    (hsize : c.position + (node.plan none path record).octets.length ≤ signedBound) :
    ∃ written, (node.encodeAt path record c).result = .ok written := by
  obtain ⟨last, -, hexecute⟩ := Cursor.exists_execute within hroom (hsize.trans_lt (by decide))
    fun _ => hsize
  rw [encodeAt, hexecute, Plan.outcome_eq_ok_iff.mpr hfault]
  exact ⟨_, rfl⟩

/-- Neither the first capacity nor the byte order of the buffer under way shows in what is encoded. -/
theorem encode_eq_encode (small : (node.plan none .root record).octets.length ≤ signedBound)
    (capacity other : Nat) (order another : Endian) :
    node.encode record capacity order = node.encode record other another := by
  obtain ⟨last, hwrote, hexecute⟩ := Cursor.exists_execute_empty small capacity order
  obtain ⟨lastToo, hwroteToo, hexecuteToo⟩ := Cursor.exists_execute_empty small other another
  obtain ⟨hcontents, hposition⟩ := hwrote.of_empty
  obtain ⟨hcontentsToo, hpositionToo⟩ := hwroteToo.of_empty
  rw [encode, encode, encodeAt, encodeAt, hexecute, hexecuteToo]
  cases (node.plan none .root record).outcome with
  | error cause => rfl
  | ok =>
    dsimp only
    rw [hcontents, hcontentsToo, hposition, hpositionToo]
    rfl

/-- Encoding at an offset within the contents splices the bytes of the encoding on its own into them.
It succeeds exactly if that encoding does and its bytes have room. If it fails, the contents before
the offset and behind the cursor are what they were. As long as floating-point numbers count the
contents, all this holds of encoding behind a seek. -/
theorem encodeInto_splices (within : c.Within) (reached : offset ≤ c.length)
    (small : offset + (node.plan none .root record).octets.length ≤ signedBound) :
    let into := node.encodeInto record c offset
    ((∃ written, into.result = .ok written) ↔
        ∃ encoded, (node.encode record 0 .big).1 = .ok encoded
          ∧ (c.growable = true ∨ offset + encoded.bytes.length ≤ c.capacity))
      ∧ (∀ written, into.result = .ok written →
          ∃ encoded, (node.encode record 0 .big).1 = .ok encoded
            ∧ written = encoded.bytes.length
            ∧ into.cursor.contents
              = c.contents.take offset ++ encoded.bytes
                ++ c.contents.drop (offset + encoded.bytes.length)
            ∧ into.cursor.length = max c.length (offset + encoded.bytes.length)
            ∧ into.cursor.position = offset + encoded.bytes.length)
      ∧ (∀ cause, into.result = .error cause →
          offset ≤ into.cursor.position
            ∧ into.cursor.contents.take offset = c.contents.take offset
            ∧ into.cursor.contents.drop into.cursor.position
              = c.contents.drop into.cursor.position)
      ∧ (∀ capacity order, node.encode record capacity order = node.encode record 0 .big)
      ∧ (c.length ≤ integerBound →
          into = node.encodeAt .root record (c.seek (Binary64.ofNat offset))) := by
  have hstart : (c.moveTo offset).Within := ⟨reached, within.length_le⟩
  have hsize : (node.plan none .root record).octets.length ≤ signedBound :=
    (Nat.le_add_left _ _).trans small
  have hoffset : offset ≤ c.contents.length := within.length_contents.symm ▸ reached
  obtain ⟨done, hwrote, hall⟩ := @encodeAt_wrote node record _ hstart .root
  have hinto : node.encodeInto record c offset = node.encodeAt .root record (c.moveTo offset) :=
    if_neg (Nat.not_lt.mpr reached)
  have hcontents := hwrote.contents_eq
  have hposition : (node.encodeAt .root record (c.moveTo offset)).cursor.position
      = offset + done.length := hwrote.position_eq
  change _ = overwrite c.contents offset done at hcontents
  have hseek := @encodeInto_eq_seek node record c offset reached
  rw [hinto] at hseek ⊢
  refine ⟨⟨?_, ?_⟩, ?_, ?_, fun capacity order => encode_eq_encode hsize _ _ _ _, hseek⟩
  · rintro ⟨written, hwritten⟩
    obtain ⟨hfault, hdone, -⟩ := hall written hwritten
    refine ⟨_, encode_eq_ok hfault hsize 0 .big, ?_⟩
    cases hgrowable : c.growable with
    | true => exact Or.inl rfl
    | false =>
      have hfixed := hwrote.capacity_eq hgrowable
      have hend := hwrote.within.position_le.trans hwrote.within.length_le
      rw [hposition, hfixed, hdone] at hend
      exact Or.inr hend
  · rintro ⟨encoded, hencoded, hroom⟩
    obtain ⟨hfault, hbytes, -⟩ := plan_of_encode_eq_ok hencoded
    rw [hbytes] at hroom
    exact exists_encodeAt hstart hfault hroom small
  · intro written hwritten
    obtain ⟨hfault, hdone, hlength⟩ := hall written hwritten
    refine ⟨_, encode_eq_ok hfault hsize 0 .big, ?_⟩
    rw [← hdone]
    refine ⟨hlength, hcontents, ?_, hposition⟩
    rw [← hwrote.within.length_contents, hcontents, length_overwrite hoffset,
      within.length_contents]
  · intro cause _
    refine ⟨hposition ▸ Nat.le_add_right _ _, ?_, ?_⟩
    · rw [hcontents, take_overwrite hoffset]
    · rw [hcontents, hposition, drop_overwrite hoffset]

/-- The schema of two numbers of one byte. -/
def pairNode : Node :=
  .struct [("a", .leaf (.scalar ⟨.uint8, .big, 0, none⟩)),
    ("b", .leaf (.scalar ⟨.uint8, .big, 0, none⟩))]

/-- A record of that schema. -/
def pairRecord : Json :=
  .object [("a", .number (.unsigned 1)), ("b", .number (.unsigned 2))]

/-- Two bytes are put down at the last of three, so that there are four. -/
theorem encodeInto_pair :
    let into := pairNode.encodeInto pairRecord (.ofBytes [9, 9, 9] .big true) 2
    into.result = .ok 2 ∧ into.cursor.contents = [9, 9, 1, 2] ∧ into.cursor.length = 4
      ∧ into.cursor.position = 4 := by
  have hencode : (pairNode.encode pairRecord 0 .big).1 = .ok ⟨[1, 2], 2⟩ := rfl
  obtain ⟨hroom, hsplice, -⟩ := @encodeInto_splices pairNode pairRecord
    (.ofBytes [9, 9, 9] .big true) 2 ⟨by decide, by decide⟩ (by decide) (by decide)
  obtain ⟨written, hwritten⟩ := hroom.mpr ⟨_, hencode, Or.inl rfl⟩
  obtain ⟨encoded, hencoded, hcount, hcontents, hlength, hposition⟩ := hsplice written hwritten
  obtain rfl : encoded = ⟨[1, 2], 2⟩ := Except.ok.inj (hencoded.symm.trans hencode)
  exact ⟨hwritten.trans (congrArg Except.ok hcount), hcontents, hlength, hposition⟩

end ByteRecord.Node
