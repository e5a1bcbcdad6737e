import ByteRecord.Json.Printer

/-!
# Array lengths

The length of an array is a count, a distance from the end of the data, the whole rest of the data,
a field of the enclosing struct or an arithmetic expression over counts and fields.
`Length.text` is its written form and `Length.fields` lists the fields that it reads.
-/

namespace ByteRecord

/-- An operator of a length expression. -/
inductive Operator where
  /-- Addition. -/
  | add
  /-- Subtraction. -/
  | subtract
  /-- Multiplication. -/
  | multiply
  /-- Division. -/
  | divide
  deriving DecidableEq

namespace Operator

/-- The sign of the operator. -/
def sign : Operator → Char
  | add => '+'
  | subtract => '-'
  | multiply => '*'
  | divide => '/'

/-- The operator of a sign. -/
def ofSign? (c : Char) : Option Operator :=
  if c = '+' then some add
  else if c = '-' then some subtract
  else if c = '*' then some multiply
  else if c = '/' then some divide
  else none

/-- What the operator computes. -/
def apply (op : Operator) (x y : Binary64) : Binary64 :=
  match op with
  | add => x + y
  | subtract => x - y
  | multiply => x * y
  | divide => x / y

end Operator

/-- An operand of a length expression. -/
inductive Operand where
  /-- A count. -/
  | count (value : Int64)
  /-- A field of the enclosing struct. -/
  | field (name : String)
  deriving DecidableEq

/-- The written form of an operand. -/
def Operand.chars : Operand → List Char
  | count value => Number.integerText value.toInt
  | field name => name.toList

/-- The field that an operand reads, if it reads one. -/
def Operand.field? : Operand → Option String
  | count _ => none
  | field name => some name

/-- One step of a length expression: what is done with the operand. -/
structure Term where
  /-- The operator that the running value and the operand meet. -/
  op : Operator
  /-- The operand. -/
  operand : Operand
  deriving DecidableEq

/-- The written form of a term behind others. -/
def Term.chars (term : Term) : List Char := term.op.sign :: term.operand.chars

/-- The length of an array. -/
inductive Length where
  /-- A count, which is not negative. -/
  | literal (count : Int64)
  /-- The bytes that remain, less as many as the negative number says. -/
  | fromEnd (back : Int64)
  /-- As many elements as the rest of the data holds. -/
  | remainder
  /-- The value of a field of the enclosing struct. -/
  | field (name : String)
  /-- An expression, worked out from left to right. -/
  | expression (terms : List Term)
  deriving DecidableEq

namespace Length

/-- The written form of an expression: a leading plus is left out. -/
def termsChars : List Term → List Char
  | [] => []
  | first :: rest =>
    (if first.op = .add then first.operand.chars else first.chars) ++ rest.flatMap Term.chars

/-- The written form of a length. -/
def chars : Length → List Char
  | literal n | fromEnd n => Number.integerText n.toInt
  | remainder => ['*']
  | field name => name.toList
  | expression terms => termsChars terms

/-- The written form of a length. -/
def text (length : Length) : String := String.ofList length.chars

/-- The length as it stands in a schema description: counts are numbers, the others are texts. -/
def toJson : Length → Json
  | literal n | fromEnd n => Json.ofInt64 n
  | length => .string length.text

/-- The fields that the length reads, in the order of use. -/
def fields : Length → List String
  | field name => [name]
  | expression terms => terms.filterMap (·.operand.field?)
  | _ => []

end Length

end ByteRecord
