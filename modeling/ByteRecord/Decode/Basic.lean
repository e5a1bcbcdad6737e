import ByteRecord.Decode.Outcome
import ByteRecord.Length.Count
import ByteRecord.Octets.FieldText
import ByteRecord.Schema.Basic

/-!
# Decoding records

`Node.decode` reads one value of a schema from the front of some bytes. Array lengths read the
fields of the nearest struct that are decoded so far. A branch tries its alternatives in order from
the same place. A counted array stops at the first element that does not match; an array over the
rest of the data ends before it.

Going back is using the earlier reader. A cursor goes back by seeking a position as a floating-point
number, which is left out here: `Node.decodeAt` decodes with such a cursor, and `Node.tracks` says that
both come to the same in data of at most two to the 53 bytes.
-/

namespace ByteRecord

/-- Passes over the bytes that fill a slot behind its value. -/
def Outcome.skipping {α : Type} (o : Outcome α) (count : Nat) : Outcome α :=
  o.andThen fun value r =>
    if count = 0 then .matched value r
    else .ofRead r ((r.skip count).map fun next => (value, next))

namespace ScalarTag

/-- Decodes a scalar slot. The demand is looked at behind the padding. -/
def decode (tag : ScalarTag) (r : Reader) : Outcome Number :=
  let read := Outcome.ofRead r (r.scalar tag.type tag.order)
  ((read.map Scalar.toNumber).skipping tag.padding).demanding tag.admits fun value =>
    .scalarMismatch tag r.offset value

end ScalarTag

namespace Tag

/-- Decodes a slot. -/
def decode (r : Reader) : Tag → Outcome Json
  | scalar tag => (tag.decode r).map .number
  | string tag =>
    let read := Outcome.ofRead r (r.fixedText tag.paddedTo.toNat)
    ((read.map fieldText).demanding tag.admits fun _ =>
      .textMismatch tag.paddedTo.toNat r.offset).map .string
  | cstring tag =>
    let read := Outcome.ofRead r (r.terminatedText tag.paddedTo.toNat)
    ((read.map fieldText).demanding tag.admits fun _ =>
      .terminatedTextMismatch r.offset).map .string

end Tag

namespace Outcome

/-- Decodes `left` more of `total` elements. -/
def repeated (decode : Reader → Outcome Json) (total : Nat) :
    (left : Nat) → Reader → Outcome (List Json)
  | 0, r => matched [] r
  | left + 1, r =>
    ((decode r).noting (.elementMismatch (total - (left + 1)) total)).andThen fun value r =>
      (repeated decode total left r).map (value :: ·)

/-- Decodes elements as long as bytes remain and elements match and take bytes. What does not match
is not taken. -/
def repeatedToEnd (decode : Reader → Outcome Json) (r : Reader) : Outcome (List Json) :=
  if r.atEnd then matched [] r
  else
    let o := decode r
    match o.verdict with
    | .noMatch => ⟨.matched [], r, o.trace⟩
    | .failed cause => ⟨.failed cause, o.reader, o.trace⟩
    | .matched value =>
      if o.reader.rest.length < r.rest.length then
        let later := (repeatedToEnd decode o.reader).map (value :: ·)
        ⟨later.verdict, later.reader, o.trace ++ later.trace⟩
      else ⟨.matched [], o.reader, o.trace⟩
termination_by r.rest.length

end Outcome

namespace Node

/-- The tag of a scalar without demand and without bytes that fill its slot. Arrays of such elements
are read in one go. -/
def plainScalar? : Node → Option ScalarTag
  | leaf (.scalar tag) => if tag.padding = 0 ∧ tag.constraint.isNone then some tag else none
  | _ => none

mutual

/-- Decodes one value of the node from the front of some bytes. -/
def decode (scope : Scope) : Node → Reader → Outcome Json
  | leaf tag, r => tag.decode r
  | array element length, r =>
    match length.resolve scope r.remaining with
    | .error cause => .failed cause r
    | .ok none => (Outcome.repeatedToEnd (decode scope element) r).map .array
    | .ok (some count) =>
      match element.plainScalar? with
      | some tag =>
        (Outcome.ofRead r (r.scalars tag.type tag.order count)).map fun values =>
          .array (values.map fun value => .number value.toNumber)
      | none => (Outcome.repeated (decode scope element) count count r).map .array
  | branch alternatives, r => decodeFirst scope r alternatives.length 0 alternatives
  | struct fields, r => (decodeFields [] fields r).map .object

/-- Decodes the first alternative that matches, each from the same place; `index` alternatives of
`total` are already tried. -/
def decodeFirst (scope : Scope) (r : Reader) (total index : Nat) : List Node → Outcome Json
  | [] => ⟨.noMatch, r, [.noAlternative total r.offset]⟩
  | node :: rest =>
    let o := decode scope node r
    match o.verdict with
    | .matched value => ⟨.matched value, o.reader, o.trace ++ [.alternativeTaken r.offset index]⟩
    | .failed cause => ⟨.failed cause, o.reader, o.trace⟩
    | .noMatch =>
      let later := decodeFirst scope r total (index + 1) rest
      ⟨later.verdict, later.reader, o.trace ++ later.trace⟩

/-- Decodes the fields behind those that are `done`. -/
def decodeFields (done : Members) : List (String × Node) → Reader → Outcome Members
  | [], r => .matched done r
  | (name, node) :: rest, r =>
    ((decode (some done) node r).noting (.fieldMismatch name)).andThen fun value r =>
      decodeFields (done ++ [(name, value)]) rest r

end

end Node

end ByteRecord
