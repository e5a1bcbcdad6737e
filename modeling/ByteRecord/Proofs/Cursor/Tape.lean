import ByteRecord.Cursor.Operation
import ByteRecord.Proofs.Cursor.Writing

/-!
# Tapes

A tape is a list of bytes with a position in it, and nothing is kept behind its bytes. A write
replaces the bytes at the position, a read gives the bytes at the position, and a capacity is kept
for one purpose only: a tape that may not grow refuses what ends beyond it.
-/

namespace ByteRecord

/-- A list of bytes with a position in it. -/
structure Tape where
  /-- The bytes. -/
  bytes : List UInt8
  /-- Where the next read or write takes place. -/
  position : Nat
  /-- The byte order of numbers for which none is given. -/
  order : Endian
  /-- Whether the bytes may end beyond the capacity. -/
  growable : Bool
  /-- How many bytes there is room for. -/
  capacity : Nat

/-- The bytes that an operation writes, if it does. -/
def Operation.written? (order : Endian) : Operation → Option (List UInt8)
  | .writeScalar type value given => some (type.toOctets (given.getD order) value)
  | .writeText text width =>
    some (text.take width ++ List.replicate (width - text.length) 0)
  | .writeTerminatedText text width =>
    some (if width = 0 then text ++ [0]
      else text.take width ++ List.replicate (width - text.length) 0)
  | .writeBytes bytes => some bytes
  | .writeZeros count => some (List.replicate count 0)
  | _ => none

namespace Tape

/-- The position that a floating-point number stands for among the bytes: the start if it is negative
or not finite, the end if it is not less than the number of bytes, and its integer part otherwise. -/
def clamped (t : Tape) (x : Binary64) : Nat :=
  if !x.isFinite || decide (x.scaled ≤ 0) then 0
  else if x.less (Binary64.ofNat t.bytes.length) then x.truncate.toNat
  else t.bytes.length

/-- Reads `count` bytes at the position, which must be there. -/
def reading (t : Tape) (count : Nat) (missing : BoundsError) (reply : List UInt8 → Reply) :
    Except Error Reply × Tape :=
  if t.position + count ≤ t.bytes.length then
    (.ok (reply ((t.bytes.drop t.position).take count)),
      { t with position := t.position + count })
  else (.error (.bounds missing), t)

/-- Writes bytes at the position, unless they have no room. -/
def writing (t : Tape) (content : List UInt8) : Except Error Reply × Tape :=
  let stop := t.position + content.length
  if t.growable = false ∧ t.capacity < stop then
    (.error (.capacity (Cursor.refusal content.length t.position t.capacity)), t)
  else
    (.ok .done,
      { t with
        bytes := overwrite t.bytes t.position content
        position := stop
        capacity := Cursor.grown stop t.capacity })

/-- The numbers in slots that follow one another. -/
def slotValues (type : ScalarType) (order : Endian) (count : Nat) (bytes : List UInt8) :
    List Scalar :=
  (List.range count).map fun i =>
    type.ofOctets order ((bytes.drop (i * type.size)).take type.size)

/-- Carries out an operation. -/
def perform (t : Tape) : Operation → Except Error Reply × Tape
  | .seek x => (.ok .done, { t with position := t.clamped x })
  | .skip count =>
    t.reading count (.pastEnd .skip count t.position t.bytes.length) fun _ => .done
  | .setGrowable growable => (.ok .done, { t with growable })
  | .setOrder order => (.ok .done, { t with order })
  | .take => (.ok (.bytes t.bytes), { t with bytes := [], position := 0, capacity := 0 })
  | .readScalar type order =>
    t.reading type.size (.pastEnd .scalar type.size t.position t.bytes.length) fun slot =>
      .scalar (type.ofOctets (order.getD t.order) slot)
  | .readText count =>
    t.reading count (.pastEnd .text count t.position t.bytes.length) .bytes
  | .readTerminatedText 0 =>
    let text := (t.bytes.drop t.position).takeWhile (· != 0)
    t.reading (text.length + 1) (.unterminated t.position t.bytes.length) fun _ => .bytes text
  | .readTerminatedText width =>
    t.reading width (.pastEnd .paddedText width t.position t.bytes.length) fun slot =>
      .bytes (slot.takeWhile (· != 0))
  | .readScalars type count order =>
    t.reading (count * type.size) (.arrayPastEnd count t.position t.bytes.length) fun slots =>
      .scalars type (slotValues type (order.getD t.order) count slots)
  | operation => t.writing ((operation.written? t.order).getD [])

/-- Carries out operations one after the other, whether or not they fail. -/
def performAll (t : Tape) : List Operation → List (Except Error Reply) × Tape
  | [] => ([], t)
  | operation :: rest =>
    let (reply, next) := t.perform operation
    let (replies, last) := next.performAll rest
    (reply :: replies, last)

/-- No write of a run makes room for more than two to the 63 bytes. -/
def GrowsWithin : Tape → List Operation → Prop
  | _, [] => True
  | t, operation :: rest =>
    (∀ content, operation.written? t.order = some content → t.growable = true →
      t.capacity < t.position + content.length → t.position + content.length ≤ signedBound)
    ∧ GrowsWithin (t.perform operation).2 rest

variable {t : Tape} {operation : Operation}

theorem GrowsWithin.front {before after : List Operation}
    (h : t.GrowsWithin (before ++ after)) :
    t.GrowsWithin before ∧ (t.performAll before).2.GrowsWithin after := by
  induction before generalizing t with
  | nil => exact ⟨trivial, h⟩
  | cons operation rest ih =>
    obtain ⟨hfirst, hrest⟩ := h
    obtain ⟨hfront, hbehind⟩ := ih hrest
    exact ⟨⟨hfirst, hfront⟩, hbehind⟩

end Tape

/-- What a cursor shows. -/
def Cursor.tape (c : Cursor) : Tape := ⟨c.contents, c.position, c.order, c.growable, c.capacity⟩

end ByteRecord
