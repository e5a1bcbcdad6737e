import ByteRecord.Cursor.Basic

/-!
# Operations on cursors

The operations that move a cursor, read from it or write to it, as data. `Operation.action` says what
each of them does, check by check and change by change; `Cursor.perform` carries one out on a cursor.
`Cursor.performAll` carries out one after the other and goes on after errors.
-/

namespace ByteRecord

/-- An operation on a cursor. Where a byte order is missing the cursor's own holds. -/
inductive Operation where
  /-- Moves to the position that a number stands for. -/
  | seek (position : Binary64)
  /-- Passes over bytes. -/
  | skip (count : Nat)
  /-- Says whether the buffer may grow. -/
  | setGrowable (growable : Bool)
  /-- Sets the byte order for numbers for which none is given. -/
  | setOrder (order : Endian)
  /-- Takes the contents out. -/
  | take
  /-- Reads a number. -/
  | readScalar (type : ScalarType) (order : Option Endian)
  /-- Reads a text of known length. -/
  | readText (count : Nat)
  /-- Reads a text that ends in a zero byte. -/
  | readTerminatedText (width : Nat)
  /-- Reads numbers without padding between them. -/
  | readScalars (type : ScalarType) (count : Nat) (order : Option Endian)
  /-- Writes a number. -/
  | writeScalar (type : ScalarType) (value : Scalar) (order : Option Endian)
  /-- Writes a text into a slot of known width. -/
  | writeText (text : List UInt8) (width : Nat)
  /-- Writes a text that ends in a zero byte. -/
  | writeTerminatedText (text : List UInt8) (width : Nat)
  /-- Writes bytes. -/
  | writeBytes (bytes : List UInt8)
  /-- Writes zeros. -/
  | writeZeros (count : Nat)

/-- What an operation answers. -/
inductive Reply where
  /-- There is nothing to answer. -/
  | done
  /-- Bytes. -/
  | bytes (bytes : List UInt8)
  /-- A number. -/
  | scalar (value : Scalar)
  /-- Numbers of one type. -/
  | scalars (type : ScalarType) (values : List Scalar)

namespace Cursor

/-- Reads at the position and answers with what is read. -/
def replying {α : Type} (read : Reader → Except BoundsError (α × Reader)) (reply : α → Reply) :
    Action Cursor Error Reply :=
  reply <$> (reading read).adapt .bounds

theorem on_replying {α : Type} (c : Cursor) (read : Reader → Except BoundsError (α × Reader))
    (reply : α → Reply) :
    (replying read reply).on c
      = match read c.reader with
        | .ok (value, next) => (.ok (reply value), c.moveTo next.offset)
        | .error cause => (.error (.bounds cause), c) := by
  rw [replying, Action.on_map, Action.on_adapt, on_reading]
  cases read c.reader with
  | ok found => rfl
  | error cause => rfl

/-- Writes at the position. -/
def writing (w : Write) : Action Cursor Error Reply :=
  (fun _ => .done) <$> (write w).adapt .capacity

theorem on_writing (c : Cursor) (w : Write) :
    (writing w).on c
      = match (write w).on c with
        | (.ok (), next) => (.ok .done, next)
        | (.error cause, left) => (.error (.capacity cause), left) := by
  rw [writing, Action.on_map, Action.on_adapt]
  cases (write w).on c with
  | mk result left =>
    cases result with
    | ok => rfl
    | error cause => rfl

end Cursor

open Cursor in
/-- What an operation does with a cursor. -/
def Operation.action : Operation → Action Cursor Error Reply
  | seek x => do
    modify (·.seek x)
    return .done
  | skip count => replying (fun r => (r.skip count).map ((), ·)) fun _ => .done
  | setGrowable growable => do
    modify fun c => { c with growable }
    return .done
  | setOrder order => do
    modify fun c => { c with order }
    return .done
  | take => do
    let (taken, left) := (← get).take
    set left
    return .bytes taken
  | readScalar type order => do replying (·.scalar type (order.getD (← get).order)) .scalar
  | readText count => replying (·.fixedText count) .bytes
  | readTerminatedText width => replying (·.terminatedText width) .bytes
  | readScalars type count order => do
    replying (·.scalars type (order.getD (← get).order) count) (.scalars type)
  | writeScalar type value order => do
    writing (.bytes (type.toOctets (order.getD (← get).order) value))
  | writeText text width => writing (.fixedText text width)
  | writeTerminatedText text width => writing (.terminatedText text width)
  | writeBytes bytes => writing (.bytes bytes)
  | writeZeros count => writing (.zeroed count)

namespace Cursor

/-- Carries out an operation. -/
def perform (c : Cursor) (operation : Operation) : Except Error Reply × Cursor :=
  operation.action.on c

theorem perform_readScalar (c : Cursor) (type : ScalarType) (order : Option Endian) :
    c.perform (.readScalar type order)
      = (replying (·.scalar type (order.getD c.order)) .scalar).on c := by
  rw [perform, Operation.action, Action.on_bind, Action.on_get]

theorem perform_readScalars (c : Cursor) (type : ScalarType) (count : Nat)
    (order : Option Endian) :
    c.perform (.readScalars type count order)
      = (replying (·.scalars type (order.getD c.order) count) (.scalars type)).on c := by
  rw [perform, Operation.action, Action.on_bind, Action.on_get]

theorem perform_writeScalar (c : Cursor) (type : ScalarType) (value : Scalar)
    (order : Option Endian) :
    c.perform (.writeScalar type value order)
      = (writing (.bytes (type.toOctets (order.getD c.order) value))).on c := by
  rw [perform, Operation.action, Action.on_bind, Action.on_get]

/-- Carries out operations one after the other, whether or not they fail. -/
def performAll (c : Cursor) : List Operation → List (Except Error Reply) × Cursor
  | [] => ([], c)
  | operation :: rest =>
    let (reply, next) := c.perform operation
    let (replies, last) := next.performAll rest
    (reply :: replies, last)

end Cursor

end ByteRecord
