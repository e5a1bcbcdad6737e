import ByteRecord.Floating.Binary64

/-!
# JSON values

Records, schema descriptions and length scopes are JSON values. Objects keep the order of their
members. Numbers remember how they were given: as an unsigned or a signed 64-bit integer or as a
64-bit floating-point number.
-/

namespace ByteRecord

/-- A JSON number. -/
inductive Number where
  /-- A non-negative integer as it is read from text or from an unsigned field. -/
  | unsigned (value : UInt64)
  /-- An integer as it is read from text with a minus sign or from a signed field. -/
  | signed (value : Int64)
  /-- Any other number. -/
  | real (value : Binary64)
  deriving DecidableEq

namespace Number

/-- The 64-bit floating-point number nearest to the number. -/
def toBinary64 : Number → Binary64
  | unsigned n => Binary64.ofNat n.toNat
  | signed n => Binary64.ofInt n.toInt
  | real x => x

/-- The number as a signed 64-bit integer, if it is an integer. The upper half of the unsigned
range wraps to the negative numbers. -/
def toInt64? : Number → Option Int64
  | unsigned n => some n.toInt64
  | signed n => some n
  | real _ => none

end Number

/-- A JSON value. -/
inductive Json where
  /-- The null value. -/
  | null
  /-- A truth value. -/
  | bool (value : Bool)
  /-- A number. -/
  | number (value : Number)
  /-- A text. -/
  | string (value : String)
  /-- A list of values. -/
  | array (items : List Json)
  /-- Named values in their order. -/
  | object (members : List (String × Json))
  deriving Inhabited

/-- The members of a JSON object in their order. -/
abbrev Members := List (String × Json)

namespace Members

/-- The value of the first member with the given name. -/
def find? (members : Members) (name : String) : Option Json :=
  members.lookup name

/-- Gives a member a value: a name that is present keeps its place, a new one goes to the end. -/
def set (members : Members) (name : String) (value : Json) : Members :=
  match members with
  | [] => [(name, value)]
  | (key, old) :: rest =>
    if key = name then (key, value) :: rest else (key, old) :: Members.set rest name value

end Members

namespace Json

/-- What kind of value it is, as error texts name it. -/
def kind : Json → String
  | null => "null"
  | bool _ => "boolean"
  | number _ => "number"
  | string _ => "string"
  | array _ => "array"
  | object _ => "object"

/-- A signed integer as a value. -/
def ofInt64 (n : Int64) : Json := number (.signed n)

end Json

end ByteRecord
