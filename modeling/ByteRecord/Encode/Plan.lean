import ByteRecord.Cursor.Basic
import ByteRecord.Length.Count
import ByteRecord.Octets.FieldText
import ByteRecord.Schema.Basic
import ByteRecord.WordRange

/-!
# Plans for encoding

What is written for a record depends on the schema and the record alone. `Node.plan` works it out as
a `Plan`: writes in order, and the fault that ends them if the record does not fit the schema.
`Plan.octets` is what the writes spell.
-/

namespace ByteRecord

/-- Writes in order, and the fault behind them if there is one. -/
structure Plan where
  /-- The writes. -/
  writes : List Write
  /-- Why there are no further writes, if the record does not fit the schema. -/
  fault : Option Error

namespace Plan

/-- No writes and no fault. -/
def empty : Plan := ⟨[], none⟩

/-- A single write. -/
def single (w : Write) : Plan := ⟨[w], none⟩

/-- A fault without writes. -/
def failing (cause : Error) : Plan := ⟨[], some cause⟩

/-- One plan after the other. Behind a fault nothing is written. -/
def append (first second : Plan) : Plan :=
  match first.fault with
  | some cause => ⟨first.writes, some cause⟩
  | none => ⟨first.writes ++ second.writes, second.fault⟩

instance : Append Plan := ⟨append⟩

/-- The bytes of the writes. -/
def octets (plan : Plan) : List UInt8 := plan.writes.flatMap Write.octets

/-- How the plan ends where all of its writes find room. -/
def outcome (plan : Plan) : Except Error Unit :=
  match plan.fault with
  | none => .ok ()
  | some cause => .error cause

end Plan

/-- Whether a number lies in the range of signed 64-bit integers. -/
def Binary64.fitsInt64 (x : Binary64) : Bool :=
  x.isFinite && decide (-(signedBound * format.one : Int) ≤ x.scaled)
    && decide (x.scaled < (signedBound * format.one : Int))

/-- The integer that a number stands for in an integer field: a floating-point number in the range
of signed 64-bit integers loses its fraction, an unsigned integer wraps into that range. -/
def Number.toField : Number → Except RecordError Int64
  | .unsigned n => .ok n.toInt64
  | .signed n => .ok n
  | .real x =>
    if x.fitsInt64 then .ok (Int64.ofInt x.truncate)
    else .error (.outOfRange x)

namespace ScalarType

/-- The value that a JSON value stands for in a slot of the type. -/
def ofJson (type : ScalarType) (value : Json) : Except RecordError Scalar :=
  match value with
  | .number n =>
    match type with
    | float32 => .ok (.single n.toBinary64.narrow)
    | float64 => .ok (.double n.toBinary64)
    | _ => n.toField.map .signed
  | value => .error (.unexpected .number value.kind)

end ScalarType

/-- The bytes that a JSON value stands for in a text slot. -/
def Json.fieldBytes (value : Json) : Except RecordError (List UInt8) :=
  match value with
  | .string s =>
    match fieldBytes? s with
    | some bytes => .ok bytes
    | none => .error .wideCharacter
  | value => .error (.unexpected .string value.kind)

namespace ScalarTag

/-- The writes of a scalar slot: the value, and the bytes that fill the slot if there are any. -/
def writes (tag : ScalarTag) (value : Scalar) : List Write :=
  let octets := Write.bytes (tag.type.toOctets tag.order value)
  if tag.padding = 0 then [octets] else [octets, Write.zeroed tag.padding]

end ScalarTag

namespace Tag

/-- What is written for the value of a slot. Demands are not looked at. -/
def writes (value : Json) : Tag → Except RecordError (List Write)
  | scalar tag => (tag.type.ofJson value).map tag.writes
  | string tag => value.fieldBytes.map fun text => [.fixedText text tag.paddedTo.toNat]
  | cstring tag => value.fieldBytes.map fun text => [.terminatedText text tag.paddedTo.toNat]

/-- The plan for the value of a slot. -/
def plan (path : Path) (value : Json) (tag : Tag) : Plan :=
  match tag.writes value with
  | .ok writes => ⟨writes, none⟩
  | .error cause => .failing (.record path cause)

end Tag

/-- Why an array of the given size does not have its length, if it does not. Lengths that depend on
the position in the data admit any size. -/
def Length.mismatch? (length : Length) (scope : Scope) (path : Path) (size : Nat) : Option Error :=
  match length.evaluate scope with
  | .error (.bounds cause) => some (.record path (.count cause))
  | .error cause => some cause
  | .ok none => none
  | .ok (some required) =>
    if required = size then none else some (.record path (.wrongCount size length.text required))

/-- The plans for numbered items, from the item of the given number on. -/
def Plan.forItems (plan : Path → Json → Plan) (path : Path) (index : Nat) : List Json → Plan
  | [] => .empty
  | item :: rest => plan (path.item index) item ++ forItems plan path (index + 1) rest

namespace Node

mutual

/-- The plan for a value at the given place of a record. Array lengths read the record of the
nearest struct as a whole. -/
def plan (scope : Scope) (path : Path) : Node → Json → Plan
  | leaf tag, value => tag.plan path value
  | array element length, value =>
    match value with
    | .array items =>
      match length.mismatch? scope path items.length with
      | some cause => .failing cause
      | none => .forItems (fun path item => plan scope path element item) path 0 items
    | value => .failing (.record path (.unexpected .array value.kind))
  | branch _, _ => .failing (.schema (.branch path))
  | struct fields, value =>
    match value with
    | .object members => planFields members path fields
    | value => .failing (.record path (.unexpected .object value.kind))

/-- The plan for the fields of a struct. Members that are not declared are passed over. -/
def planFields (members : Members) (path : Path) : List (String × Node) → Plan
  | [] => .empty
  | (name, node) :: rest =>
    match members.find? name with
    | none => .failing (.record (path.field name) .missingField)
    | some value => plan (some members) (path.field name) node value ++ planFields members path rest

end

end Node

end ByteRecord
