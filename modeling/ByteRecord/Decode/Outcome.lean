import ByteRecord.Reader
import ByteRecord.Trace

/-!
# Outcomes of decoding

Decoding some bytes ends in a match, in no match or in an error. In each case the reader stands
somewhere and events have happened; an `Outcome` holds all three. `Outcome.andThen` goes on behind
a match and otherwise stops.
-/

namespace ByteRecord

/-- How decoding ends. -/
inductive Verdict (α : Type) where
  /-- The bytes match, with a value. -/
  | matched (value : α)
  /-- The bytes do not match. -/
  | noMatch
  /-- The bytes could not be decoded. -/
  | failed (cause : Error)

/-- How decoding ends, where it leaves the reader and what happened on the way. -/
structure Outcome (α : Type) where
  /-- How decoding ends. -/
  verdict : Verdict α
  /-- Where the reader stands. -/
  reader : Reader
  /-- What happened, in order. -/
  trace : List Event

namespace Outcome

variable {α β : Type}

/-- A match at the given place. -/
def matched (value : α) (r : Reader) : Outcome α := ⟨.matched value, r, []⟩

/-- An error at the given place. -/
def failed (cause : Error) (r : Reader) : Outcome α := ⟨.failed cause, r, []⟩

/-- Goes on behind a match. -/
def andThen (o : Outcome α) (next : α → Reader → Outcome β) : Outcome β :=
  match o.verdict with
  | .matched value =>
    let later := next value o.reader
    ⟨later.verdict, later.reader, o.trace ++ later.trace⟩
  | .noMatch => ⟨.noMatch, o.reader, o.trace⟩
  | .failed cause => ⟨.failed cause, o.reader, o.trace⟩

/-- Changes the value of a match. -/
def map (f : α → β) (o : Outcome α) : Outcome β :=
  o.andThen fun value r => matched (f value) r

/-- Reports an event if there is no match. -/
def noting (event : Event) (o : Outcome α) : Outcome α :=
  match o.verdict with
  | .noMatch => ⟨.noMatch, o.reader, o.trace ++ [event]⟩
  | _ => o

/-- Demands something of the value of a match; if it is not met, there is no match and the event is
reported. -/
def demanding (o : Outcome α) (admits : α → Bool) (event : α → Event) : Outcome α :=
  o.andThen fun value r =>
    if admits value then matched value r else ⟨.noMatch, r, [event value]⟩

/-- The outcome of a read: a match behind it, or an error where it started. -/
def ofRead (r : Reader) : Except BoundsError (α × Reader) → Outcome α
  | .ok (value, next) => matched value next
  | .error cause => failed (.bounds cause) r

end Outcome

end ByteRecord
