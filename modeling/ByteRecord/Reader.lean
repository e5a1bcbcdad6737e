import ByteRecord.Error

/-!
# Reading bytes in order

A `Reader` is what remains of some bytes together with how many stand before it. Each read takes
bytes off the front and gives the reader behind them, or says what is missing and leaves the reader
where it was. A reader is a value, so going back to an earlier place is using the earlier reader.
-/

namespace ByteRecord

/-- A place within some bytes. -/
structure Reader where
  /-- How many bytes stand before the place. -/
  offset : Nat
  /-- The bytes from the place on. -/
  rest : List UInt8
  deriving DecidableEq

namespace Reader

/-- The reader at the start of some bytes. -/
def ofBytes (bytes : List UInt8) : Reader := ⟨0, bytes⟩

/-- How many bytes remain. -/
def remaining (r : Reader) : Nat := r.rest.length

/-- How many bytes there are, before and behind the place. -/
def size (r : Reader) : Nat := r.offset + r.remaining

/-- Whether no bytes remain. -/
def atEnd (r : Reader) : Bool := r.rest.isEmpty

/-- The reader behind the next `count` bytes, which must be there. -/
def advance (r : Reader) (count : Nat) : Reader := ⟨r.offset + count, r.rest.drop count⟩

theorem remaining_advance (r : Reader) (count : Nat) :
    (r.advance count).remaining = r.remaining - count := List.length_drop

/-- Going on twice is going on once, by as much. -/
theorem advance_advance (r : Reader) (first second : Nat) :
    (r.advance first).advance second = r.advance (first + second) := by
  rw [advance, advance, advance, List.drop_drop, Nat.add_assoc]

/-- The next `count` bytes for the given purpose. -/
def take (r : Reader) (access : Access) (count : Nat) :
    Except BoundsError (List UInt8 × Reader) :=
  if count ≤ r.remaining then .ok (r.rest.take count, r.advance count)
  else .error (.pastEnd access count r.offset r.size)

/-- Passes over the next `count` bytes. -/
def skip (r : Reader) (count : Nat) : Except BoundsError Reader :=
  (r.take .skip count).map Prod.snd

/-- The next scalar. -/
def scalar (r : Reader) (type : ScalarType) (order : Endian) :
    Except BoundsError (Scalar × Reader) := do
  let (bytes, next) ← r.take .scalar type.size
  return (type.ofOctets order bytes, next)

/-- The next `count` scalars without padding between them. -/
def scalars (r : Reader) (type : ScalarType) (order : Endian) (count : Nat) :
    Except BoundsError (List Scalar × Reader) :=
  if count ≤ r.remaining / type.size then
    .ok (type.ofSlots order count r.rest, r.advance (count * type.size))
  else .error (.arrayPastEnd count r.offset r.size)

/-- The bytes before the first zero byte. -/
def untilZero (bytes : List UInt8) : List UInt8 := bytes.takeWhile (· != 0)

/-- The next text of exactly `count` bytes. -/
def fixedText (r : Reader) (count : Nat) : Except BoundsError (List UInt8 × Reader) :=
  r.take .text count

/-- The next text that ends in a zero byte. In a slot of a known width the zero byte may be missing
and the whole slot is passed over; without a width the zero byte must be there and is passed
over. -/
def terminatedText (r : Reader) (width : Nat) : Except BoundsError (List UInt8 × Reader) :=
  if width = 0 then
    let text := untilZero r.rest
    if text.length < r.remaining then .ok (text, r.advance (text.length + 1))
    else .error (.unterminated r.offset r.size)
  else do
    let (slot, next) ← r.take .paddedText width
    return (untilZero slot, next)

end Reader

end ByteRecord
