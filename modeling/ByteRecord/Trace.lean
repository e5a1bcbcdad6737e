import ByteRecord.Path
import ByteRecord.Shown
import ByteRecord.Tag.Basic

/-!
# What happens on the way

Decoding and encoding report their decisions as events. An event is only worded when it is shown.
-/

namespace ByteRecord

/-- A decision on the way. -/
inductive Event where
  /-- A scalar does not meet the demand of its tag. -/
  | scalarMismatch (tag : ScalarTag) (offset : Nat) (value : Number)
  /-- A text of fixed width does not meet the demand of its tag. -/
  | textMismatch (width offset : Nat)
  /-- A text that ends in a zero byte does not meet the demand of its tag. -/
  | terminatedTextMismatch (offset : Nat)
  /-- An element of an array does not match. -/
  | elementMismatch (index count : Nat)
  /-- An alternative of a branch matches. -/
  | alternativeTaken (offset index : Nat)
  /-- No alternative of a branch matches. -/
  | noAlternative (count offset : Nat)
  /-- A field of a struct does not match. -/
  | fieldMismatch (name : String)
  /-- Bytes are left behind a record that should use up all of them. -/
  | trailingBytes (label : String) (count : Nat)
  /-- A record is encoded. -/
  | encoded (path : Path) (count offset : Nat)

namespace Event

/-- The wording of the event. -/
def message [RealPrinter] : Event → String
  | scalarMismatch tag offset value =>
    s!"no match: {(Tag.scalar tag).text} at offset {offset} read {String.ofList value.text}"
  | textMismatch width offset => s!"no match: string:{width} at offset {offset}"
  | terminatedTextMismatch offset => s!"no match: cstring at offset {offset}"
  | elementMismatch index count => s!"no match: array element {index} of {count}"
  | alternativeTaken offset index => s!"branch at offset {offset} took alternative {index}"
  | noAlternative count offset => s!"no match: all {count} alternatives at offset {offset}"
  | fieldMismatch name => s!"no match: field '{shown name}'"
  | trailingBytes label count => s!"{label}: {count} trailing bytes after record"
  | encoded path count offset => s!"encoded {shown path.text}: {count} bytes at offset {offset}"

/-- The event as a line of the detailed report. -/
def line [RealPrinter] (event : Event) : String := "[DEBUG] " ++ event.message

end Event

end ByteRecord
