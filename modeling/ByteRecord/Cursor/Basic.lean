import ByteRecord.Action
import ByteRecord.Reader
import ByteRecord.WordRange

/-!
# Cursors over a growing buffer

A `Cursor` reads and writes bytes at a position within a buffer. The first `length` bytes of the
buffer are its contents; the others are spare. A write at the position replaces contents and extends
them where it reaches beyond their end; where it reaches beyond the buffer, the buffer is doubled
until the write fits, if it may grow. Reads see the contents only. Reading and writing are actions on
the cursor: they check first and change it only then, so one that fails leaves the cursor as it was.
-/

namespace ByteRecord

/-- A buffer with a position in it. -/
structure Cursor where
  /-- All bytes of the buffer, contents and spare. -/
  buffer : List UInt8
  /-- How many bytes of the buffer are contents. -/
  length : Nat
  /-- Where the next read or write takes place. -/
  position : Nat
  /-- The byte order of numbers for which none is given. -/
  order : Endian
  /-- Whether the buffer may grow. -/
  growable : Bool

/-- What one write puts down: some bytes and zeros behind them. -/
structure Write where
  /-- The bytes. -/
  content : List UInt8
  /-- How many zeros follow them. -/
  zeros : Nat

namespace Write

/-- How many bytes the write takes. -/
def size (w : Write) : Nat := w.content.length + w.zeros

/-- The bytes of the write. -/
def octets (w : Write) : List UInt8 := w.content ++ List.replicate w.zeros 0

@[simp] theorem length_octets (w : Write) : w.octets.length = w.size := by
  simp [octets, size]

/-- A write without zeros behind it. -/
def bytes (content : List UInt8) : Write := ⟨content, 0⟩

/-- A write of zeros only. -/
def zeroed (count : Nat) : Write := ⟨[], count⟩

/-- A text in a slot of exactly `width` bytes: what does not fit is left out, and zeros fill the
rest. -/
def fixedText (text : List UInt8) (width : Nat) : Write :=
  ⟨text.take width, width - text.length⟩

/-- A text that ends in a zero byte. In a slot of a known width the zero byte may have no room. -/
def terminatedText (text : List UInt8) (width : Nat) : Write :=
  if width = 0 then ⟨text, 1⟩ else fixedText text width

end Write

namespace Cursor

/-- A cursor without contents over a buffer of the given capacity. -/
def empty (capacity : Nat) (order : Endian) (growable : Bool) : Cursor :=
  ⟨List.replicate capacity 0, 0, 0, order, growable⟩

/-- A cursor at the start of some bytes, without spare room. -/
def ofBytes (bytes : List UInt8) (order : Endian) (growable : Bool) : Cursor :=
  ⟨bytes, bytes.length, 0, order, growable⟩

/-- The bytes that have been written or given. -/
def contents (c : Cursor) : List UInt8 := c.buffer.take c.length

/-- How many bytes the buffer has. -/
def capacity (c : Cursor) : Nat := c.buffer.length

/-- How many bytes of the contents remain behind the position. -/
def remaining (c : Cursor) : Nat := c.length - c.position

/-- Whether the position is at the end of the contents. -/
def atEnd (c : Cursor) : Bool := c.position == c.length

/-- The place that the position is in the contents. -/
def reader (c : Cursor) : Reader := ⟨c.position, c.contents.drop c.position⟩

/-- The cursor at another position. -/
def moveTo (c : Cursor) (position : Nat) : Cursor := { c with position }

/-- The position that a floating-point number stands for: its integer part within the contents.
Negative numbers and those that are not finite stand for the start. -/
def clampedPosition (c : Cursor) (x : Binary64) : Nat :=
  if !x.isFinite || decide (x.scaled ≤ 0) then 0
  else if x.less (Binary64.ofNat c.length) then x.truncate.toNat
  else c.length

/-- Moves to the position that a floating-point number stands for. -/
def seek (c : Cursor) (x : Binary64) : Cursor := c.moveTo (c.clampedPosition x)

/-- Reads at the position and moves behind what is read. -/
def reading {α : Type} (read : Reader → Except BoundsError (α × Reader)) :
    Action Cursor BoundsError α := do
  let c ← get
  let (value, next) ← read c.reader
  modify (·.moveTo next.offset)
  return value

theorem on_reading {α : Type} (c : Cursor) (read : Reader → Except BoundsError (α × Reader)) :
    (reading read).on c
      = match read c.reader with
        | .ok (value, next) => (.ok value, c.moveTo next.offset)
        | .error cause => (.error cause, c) := by
  rw [reading, Action.on_bind, Action.on_get]
  dsimp only
  rw [Action.on_bind, Action.on_lift]
  cases read c.reader with
  | ok found => rfl
  | error cause => rfl

/-- The least capacity that a buffer grows to. -/
def leastCapacity : Nat := 32

/-- Doubles a 64-bit capacity until it reaches the size that is needed. A word that is doubled 64
times is zero from then on, so a size that 64 doublings do not reach is never reached. -/
def doubleUntil (needed : UInt64) : (doublings : Nat) → UInt64 → Option UInt64
  | 0, capacity => if needed ≤ capacity then some capacity else none
  | doublings + 1, capacity =>
    if needed ≤ capacity then some capacity else doubleUntil needed doublings (capacity * 2)

/-- The capacity that a buffer grows to. -/
def grownCapacity? (capacity needed : Nat) : Option UInt64 :=
  doubleUntil (UInt64.ofNat needed) 64 (UInt64.ofNat (max capacity leastCapacity))

/-- The buffer with spare zeros up to the given capacity. -/
def extend (c : Cursor) (capacity : Nat) : Cursor :=
  { c with buffer := c.buffer ++ List.replicate (capacity - c.capacity) 0 }

/-- Makes room for `count` bytes at the position. Growth up to two to the 63 bytes is taken to find
memory, although no allocator grants as much. -/
def reserve (count : Nat) : Action Cursor CapacityError Unit := do
  let c ← get
  let needed := c.position + count
  if wordCount ≤ needed then throw .addressSpace
  else if needed ≤ c.capacity then return
  else if !c.growable then throw (.full count c.position c.capacity)
  else
    match grownCapacity? c.capacity needed with
    | some capacity => modify (·.extend capacity.toNat)
    | none => throw (.unreachable needed)

theorem on_reserve (c : Cursor) (count : Nat) :
    (reserve count).on c
      = if wordCount ≤ c.position + count then (.error .addressSpace, c)
        else if c.position + count ≤ c.capacity then (.ok (), c)
        else if !c.growable then (.error (.full count c.position c.capacity), c)
        else
          match grownCapacity? c.capacity (c.position + count) with
          | some capacity => (.ok (), c.extend capacity.toNat)
          | none => (.error (.unreachable (c.position + count)), c) := by
  rw [reserve, Action.on_bind, Action.on_get]
  dsimp only
  split
  · rfl
  · split
    · rfl
    · split
      · rfl
      · cases grownCapacity? c.capacity (c.position + count) with
        | some capacity => rfl
        | none => rfl

/-- Some bytes with those from a position on replaced by others. -/
def splice (bytes : List UInt8) (position : Nat) (w : Write) : List UInt8 :=
  bytes.take position ++ w.octets ++ bytes.drop (position + w.size)

/-- A write within some bytes keeps their number. -/
theorem length_splice (bytes : List UInt8) (position : Nat) (w : Write)
    (h : position + w.size ≤ bytes.length) :
    (splice bytes position w).length = bytes.length := by
  simp only [splice, List.length_append, List.length_take, List.length_drop, Write.length_octets]
  omega

/-- Puts a write down where there is room for it. -/
def commit (c : Cursor) (w : Write) : Cursor :=
  { c with
    buffer := splice c.buffer c.position w
    length := max c.length (c.position + w.size)
    position := c.position + w.size }

/-- Writes at the position and moves behind what is written. -/
def write (w : Write) : Action Cursor CapacityError Unit := do
  reserve w.size
  modify (·.commit w)

theorem on_write (c : Cursor) (w : Write) :
    (write w).on c
      = match (reserve w.size).on c with
        | (.ok (), roomy) => (.ok (), roomy.commit w)
        | (.error cause, left) => (.error cause, left) := by
  rw [write, Action.on_bind]
  cases (reserve w.size).on c with
  | mk result left =>
    cases result with
    | ok => rfl
    | error cause => rfl

/-- Takes the contents out and leaves an empty cursor without capacity. -/
def take (c : Cursor) : List UInt8 × Cursor :=
  (c.contents, { c with buffer := [], length := 0, position := 0 })

end Cursor

end ByteRecord
