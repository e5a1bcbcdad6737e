import ByteRecord.Decode.Basic

/-!
# Decoding a record within some bytes

`Node.decodeRecord` decodes one record from a given offset on. It may demand that the record uses up
all bytes behind the offset. That the offset is sought as a floating-point number is left out:
`Node.decodeRecordAt` seeks it, and `Node.decodeRecordAt_eq` says that both come to the same for at most
two to the 53 bytes.
-/

namespace ByteRecord

/-- A record that was decoded, or that there is none. -/
structure Decoded where
  /-- The record, if the bytes match. -/
  record : Option Json
  /-- Where the record ends; without a match where it would have started. -/
  stop : Nat
  /-- How many bytes the record takes; none without a match. -/
  consumed : Nat

/-- How bytes are to be decoded. -/
structure DecodeOptions where
  /-- Where the record starts. -/
  offset : Nat
  /-- Whether bytes behind the record count as no match. -/
  wholly : Bool
  /-- What the events call the bytes. -/
  label : String

/-- The result without a match. -/
def Decoded.none (offset : Nat) : Decoded := ⟨Option.none, offset, 0⟩

namespace Node

/-- Decodes a record and reports the events on the way. -/
def decodeRecord (node : Node) (options : DecodeOptions) (bytes : List UInt8) :
    Except Error Decoded × List Event :=
  if bytes.length < options.offset then
    (.error (.bounds (.decodeOffset options.offset bytes.length)), [])
  else
    let o := node.decode none ((Reader.ofBytes bytes).advance options.offset)
    match o.verdict with
    | .failed cause => (.error cause, o.trace)
    | .noMatch => (.ok (.none options.offset), o.trace)
    | .matched record =>
      if options.wholly && !o.reader.atEnd then
        (.ok (.none options.offset),
          o.trace ++ [.trailingBytes options.label o.reader.remaining])
      else
        (.ok ⟨some record, o.reader.offset, o.reader.offset - options.offset⟩, o.trace)

end Node

end ByteRecord
