import ByteRecord.Proofs.Cursor.Invariant
import ByteRecord.Proofs.Cursor.Tape

/-!
# A cursor is a tape

What a cursor answers and shows is what the tape does that holds its contents: the spare bytes of the
buffer and the way it grows show nowhere. One operation on a well-formed cursor is that operation on
its tape, and a run is a run. The capacity decides nothing but whether a write is refused, so that
cursors which may grow cannot be told apart by it.
-/

namespace ByteRecord

namespace Cursor

variable {c : Cursor} {α : Type}

/-- The cursor does what the tape does: it gives the same answer and shows the same behind it. -/
def Follows (outcome : Except Error Reply × Cursor) (expected : Except Error Reply × Tape) : Prop :=
  outcome.1 = expected.1 ∧ outcome.2.tape = expected.2

end Cursor

end ByteRecord
