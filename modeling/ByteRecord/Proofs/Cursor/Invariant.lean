import ByteRecord.Proofs.Atomicity
import ByteRecord.Proofs.Cursor.Writing
import ByteRecord.Proofs.Decode.Passing
import ByteRecord.Proofs.Floating.Arithmetic

/-!
# The invariant of a cursor

Every cursor starts well formed and every operation keeps it so: a seek ends within the contents,
whatever number it is given, a read passes over bytes that are there, and a write finds room before
it changes anything. Operations are atomic, so one that fails changes nothing at all, and only taking
the contents out makes a buffer smaller. What holds of one operation holds along a run.
-/

namespace ByteRecord

namespace Cursor

/-- A cursor as it is made: without contents over spare zeros, or at the start of some bytes. -/
inductive Constructed : Cursor → Prop
  /-- A cursor without contents. -/
  | empty {capacity : Nat} (order : Endian) (growable : Bool) (h : capacity < wordCount) :
      Constructed (empty capacity order growable)
  /-- A cursor over some bytes. -/
  | ofBytes {bytes : List UInt8} (order : Endian) (growable : Bool) (h : bytes.length < wordCount) :
      Constructed (ofBytes bytes order growable)

variable {c next : Cursor} {bytes : List UInt8} {place : Reader}

theorem Constructed.wellFormed (h : c.Constructed) : c.WellFormed := by
  cases h with
  | empty order growable hword =>
    refine ⟨⟨Nat.le_refl _, Nat.zero_le _⟩, ?_, fun byte hbyte => List.eq_of_mem_replicate hbyte⟩
    rw [capacity, Cursor.empty, List.length_replicate]
    exact hword
  | ofBytes order growable hword =>
    refine ⟨⟨Nat.zero_le _, Nat.le_refl _⟩, hword, ?_⟩
    rw [Cursor.ofBytes, List.drop_length]
    exact List.forall_mem_nil _

/-- The position that a number stands for is within the contents or at their end. -/
theorem clampedPosition_le (c : Cursor) (x : Binary64) : c.clampedPosition x ≤ c.length := by
  unfold clampedPosition
  split
  · exact Nat.zero_le _
  · split
    · rename_i hless
      have hle := Binary64.truncate_le_of_less hless
      omega
    · exact Nat.le_refl _

/-- A natural number stands for itself, as far as the contents reach. -/
theorem seek_ofNat {position : Nat} (hposition : position ≤ c.length)
    (hsmall : c.length ≤ integerBound) : c.seek (Binary64.ofNat position) = c.moveTo position := by
  have hword : position ≤ integerBound := hposition.trans hsmall
  have hone := Binary64.format.one_pos
  have represents := Binary64.represents_ofNat hword
  rw [seek, clampedPosition, represents.finite, represents.scaled_eq]
  rcases Nat.eq_zero_or_pos position with hzero | hpos
  · rw [hzero, Nat.cast_zero, zero_mul]
    rfl
  · have hstart : ¬ (position * Binary64.format.one : Int) ≤ 0 := by
      have hproduct := Nat.mul_pos hpos hone
      omega
    rw [decide_eq_false hstart, represents.truncate_eq]
    rcases hposition.lt_or_eq with hlt | heq
    · rw [Binary64.less_ofNat hlt hsmall]
      rfl
    · rw [heq]
      simp

/-- Seeking the position where a cursor was goes back to it, wherever it was moved meanwhile. -/
theorem Within.seek_back (h : c.Within) (hsmall : c.length ≤ integerBound) (position : Nat) :
    (c.moveTo position).seek (Binary64.ofNat c.position) = c := by
  have hback : (c.moveTo position).seek (Binary64.ofNat c.position)
      = (c.moveTo position).moveTo c.position := seek_ofNat h.position_le hsmall
  exact hback

/-- A cursor may stand anywhere within its contents. -/
theorem WellFormed.moveTo (h : c.WellFormed) {position : Nat} (hposition : position ≤ c.length) :
    (c.moveTo position).WellFormed :=
  ⟨⟨hposition, h.length_le⟩, h.capacity_lt, h.spare⟩

/-- What remains behind the position of a cursor remains at its place. -/
theorem Within.remaining_reader (h : c.Within) : c.reader.remaining = c.remaining := by
  rw [Reader.remaining, reader, List.length_drop, h.length_contents, Cursor.remaining]

/-- A cursor is at the end if no bytes remain. -/
theorem Within.atEnd_reader (h : c.Within) : c.reader.atEnd = c.atEnd := by
  have hposition := h.position_le
  rw [Bool.eq_iff_iff, Reader.atEnd, List.isEmpty_iff_length_eq_zero, Cursor.atEnd,
    beq_iff_eq]
  have hremaining := h.remaining_reader
  rw [Reader.remaining, Cursor.remaining] at hremaining
  omega

/-- A place that is ahead is within the contents. -/
theorem Within.offset_le (h : c.Within) (hpass : c.reader.Passes bytes place) :
    place.offset ≤ c.length := by
  have hposition := h.position_le
  have hroom := hpass.length_le
  rw [h.remaining_reader, Cursor.remaining] at hroom
  have hoffset : place.offset = c.position + bytes.length := hpass.offset
  omega

/-- A cursor at a place that is ahead is within its contents. -/
theorem Within.moveTo (h : c.Within) (hpass : c.reader.Passes bytes place) :
    (c.moveTo place.offset).Within :=
  ⟨h.offset_le hpass, h.length_le⟩

/-- A cursor at a place that is ahead sees what remains there. -/
theorem reader_moveTo (hpass : c.reader.Passes bytes place) :
    (c.moveTo place.offset).reader = place := by
  have hrest : c.contents.drop place.offset = place.rest := by
    have hoffset : place.offset = c.position + bytes.length := hpass.offset
    have hbytes : c.contents.drop c.position = bytes ++ place.rest := hpass.rest
    rw [hoffset, ← List.drop_drop, hbytes, List.drop_left]
  change Reader.mk place.offset (c.contents.drop place.offset) = place
  rw [hrest]

/-- What an action keeps: the invariant and the capacity. -/
structure Kept (before after : Cursor) : Prop where
  /-- The cursor behind the action is well formed. -/
  wellFormed : after.WellFormed
  /-- The buffer has not become smaller. -/
  capacity_le : before.capacity ≤ after.capacity

/-- An action that fails keeps everything, so only one that succeeds needs a proof. -/
theorem WellFormed.kept {ε α : Type} {action : Action Cursor ε α} (h : c.WellFormed)
    (atomic : action.Atomic) (succeeds : ∀ value, (action.on c).1 = .ok value →
      c.Kept (action.on c).2) : c.Kept (action.on c).2 := by
  cases hresult : (action.on c).1 with
  | ok value => exact succeeds value hresult
  | error cause =>
    rw [atomic c cause hresult]
    exact ⟨h, Nat.le_refl _⟩

theorem WellFormed.replying {α : Type} (h : c.WellFormed)
    {read : Reader → Except BoundsError (α × Reader)} (goesOn : Reader.GoesOn read)
    (reply : α → Reply) : c.Kept ((Cursor.replying read reply).on c).2 := by
  refine h.kept (atomic_replying read reply) fun value hvalue => ?_
  rw [on_replying] at hvalue ⊢
  cases hread : read c.reader with
  | error cause =>
    rw [hread] at hvalue
    cases hvalue
  | ok found =>
    obtain ⟨bytes, hpass⟩ := goesOn _ _ _ hread
    exact ⟨h.moveTo (h.offset_le hpass), Nat.le_refl _⟩

theorem WellFormed.writing (h : c.WellFormed) (w : Write) :
    c.Kept ((Cursor.writing w).on c).2 := by
  refine h.kept (atomic_writing w) fun value hvalue => ?_
  rw [on_writing] at hvalue ⊢
  cases hwrite : (Cursor.write w).on c with
  | mk result next =>
    cases result with
    | error cause =>
      rw [hwrite] at hvalue
      cases hvalue
    | ok => exact ⟨h.write hwrite, (h.toWithin.write hwrite).capacity_le⟩

/-- Every operation but one keeps the invariant and the capacity. -/
theorem WellFormed.perform (h : c.WellFormed) {operation : Operation} (hne : operation ≠ .take) :
    c.Kept (c.perform operation).2 := by
  cases operation with
  | seek x => exact ⟨h.moveTo (c.clampedPosition_le x), Nat.le_refl _⟩
  | skip count => exact h.replying (Reader.goesOn_skip () count) _
  | setGrowable growable =>
    exact ⟨⟨⟨h.position_le, h.length_le⟩, h.capacity_lt, h.spare⟩, Nat.le_refl _⟩
  | setOrder order =>
    exact ⟨⟨⟨h.position_le, h.length_le⟩, h.capacity_lt, h.spare⟩, Nat.le_refl _⟩
  | take => exact absurd rfl hne
  | readScalar type order =>
    rw [perform_readScalar]
    exact h.replying (Reader.goesOn_scalar type _) _
  | readText count => exact h.replying (Reader.goesOn_fixedText count) _
  | readTerminatedText width => exact h.replying (Reader.goesOn_terminatedText width) _
  | readScalars type count order =>
    rw [perform_readScalars]
    exact h.replying (Reader.goesOn_scalars type _ count) _
  | writeScalar type value order =>
    rw [perform_writeScalar]
    exact h.writing _
  | writeText text width => exact h.writing _
  | writeTerminatedText text width => exact h.writing _
  | writeBytes bytes => exact h.writing _
  | writeZeros count => exact h.writing _

/-- A cursor whose contents are taken out is as one that is made without capacity. -/
theorem wellFormed_take (c : Cursor) : (c.perform .take).2.WellFormed :=
  ⟨⟨Nat.le_refl _, Nat.le_refl _⟩, Nat.zero_lt_succ _, List.forall_mem_nil _⟩

theorem WellFormed.perform_snd (h : c.WellFormed) (operation : Operation) :
    (c.perform operation).2.WellFormed := by
  by_cases htake : operation = .take
  · rw [htake]
    exact c.wellFormed_take
  · exact (h.perform htake).wellFormed

/-- A run keeps the invariant. -/
theorem WellFormed.performAll (h : c.WellFormed) (operations : List Operation) :
    (c.performAll operations).2.WellFormed := by
  induction operations generalizing c with
  | nil => exact h
  | cons operation rest ih => exact ih (h.perform_snd operation)

/-- A run that does not take the contents out keeps the capacity. -/
theorem WellFormed.capacity_performAll (h : c.WellFormed) {operations : List Operation}
    (hkept : .take ∉ operations) : c.capacity ≤ (c.performAll operations).2.capacity := by
  induction operations generalizing c with
  | nil => exact Nat.le_refl _
  | cons operation rest ih =>
    rw [List.mem_cons, not_or] at hkept
    have hfirst := h.perform (Ne.symm hkept.1)
    exact Nat.le_trans hfirst.capacity_le (ih hfirst.wellFormed hkept.2)

/-- Wherever a run has led a cursor, its position is within its contents, its contents are within its
buffer and the spare bytes are zero. From there on, the capacity only shrinks if the contents are
taken out, and an operation that fails leaves all as it was. -/
theorem invariant_performAll (constructed : c.Constructed) (operations : List Operation) :
    let here := (c.performAll operations).2
    here.position ≤ here.length ∧ here.length ≤ here.capacity
      ∧ (∀ byte ∈ here.buffer.drop here.length, byte = 0)
      ∧ (∀ later : List Operation, .take ∉ later →
          here.capacity ≤ (here.performAll later).2.capacity)
      ∧ ∀ operation cause, (here.perform operation).1 = .error cause →
          (here.perform operation).2 = here := by
  have h := constructed.wellFormed.performAll operations
  exact ⟨h.position_le, h.length_le, h.spare, fun later => h.capacity_performAll,
    fun operation cause => operation.atomic _ cause⟩

/-- Three full bytes make room for a fourth and for spare zeros. -/
theorem invariant_performAll_growing :
    let here := ((ofBytes [1, 2, 3] .big true).performAll [.skip 3, .writeBytes [4], .skip 1]).2
    (here.position = 4 ∧ here.length = 4 ∧ here.capacity = 32)
      ∧ (∀ byte ∈ here.buffer.drop here.length, byte = 0)
      ∧ (here.perform (.skip 1)).2 = here := by
  have hword : ([1, 2, 3] : List UInt8).length < wordCount := by decide
  obtain ⟨-, -, hspare, -, hunchanged⟩ :=
    invariant_performAll (.ofBytes .big true hword) [.skip 3, .writeBytes [4], .skip 1]
  exact ⟨by decide, hspare, hunchanged (.skip 1) _ rfl⟩

end Cursor

end ByteRecord
