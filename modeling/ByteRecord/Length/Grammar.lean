import ByteRecord.Digits
import ByteRecord.Length.Basic
import ByteRecord.WordRange

/-!
# Reading array lengths

A length is given as a JSON integer or as a text. White space does not count in a text; what is
left is a star, a run of digits, a name without operators, or operands with operators between them.
`Length.ofJson` reads a length and says why a value is none.
-/

namespace ByteRecord

/-- Why a value is no array length. -/
inductive LengthError where
  /-- The value is neither an integer nor a text. -/
  | invalidKind (value : Json)
  /-- The text holds nothing but white space. -/
  | empty
  /-- A count in the text does not fit a signed 64-bit number. -/
  | overflow (text : String)
  /-- An operator lacks its operand. -/
  | missingOperand (text : String)

/-- The wording of the error. -/
def LengthError.message [RealPrinter] : LengthError → String
  | invalidKind value => s!"Array length must be an integer or a string, got {value.compact}"
  | empty => "Array length is empty"
  | overflow text => s!"Array length overflows: '{text}'"
  | missingOperand text => s!"Missing operand in array length '{text}'"

namespace Length

/-- Whether a character is the sign of an operator. -/
def isOperator (c : Char) : Bool := (Operator.ofSign? c).isSome

/-- Reads a run of digits within the given text. -/
def readCount (text digits : List Char) : Except LengthError Int64 :=
  match boundedNat? greatestSigned digits with
  | some n => .ok (Int64.ofNat n)
  | none => .error (.overflow (String.ofList text))

/-- Cuts a text in front of every operator, except at its very start. -/
def segments : List Char → List (List Char)
  | [] => []
  | c :: rest =>
    match segments rest with
    | [] => [[c]]
    | segment :: others =>
      if segment.head?.any isOperator then [c] :: segment :: others
      else (c :: segment) :: others

/-- Takes the operator off a segment; a segment without one adds. -/
def takeOperator : List Char → Operator × List Char
  | [] => (.add, [])
  | c :: rest =>
    match Operator.ofSign? c with
    | some op => (op, rest)
    | none => (.add, c :: rest)

/-- Reads an operand within the given text. -/
def readOperand (text operand : List Char) : Except LengthError Operand :=
  if operand.isEmpty then .error (.missingOperand (String.ofList text))
  else if allDigits operand then (readCount text operand).map .count
  else .ok (.field (String.ofList operand))

/-- Reads a segment within the given text. -/
def readTerm (text segment : List Char) : Except LengthError Term := do
  let (op, operand) := takeOperator segment
  return ⟨op, ← readOperand text operand⟩

/-- Reads a text without white space. -/
def readChars (text : List Char) : Except LengthError Length :=
  if text.isEmpty then .error .empty
  else if text = ['*'] then .ok remainder
  else if allDigits text then (readCount text text).map literal
  else if text.any isOperator then (segments text).mapM (readTerm text) |>.map expression
  else .ok (field (String.ofList text))

/-- The length that a signed 64-bit number stands for: a negative one counts from the end. -/
def ofInt64 (n : Int64) : Length := if n < 0 then fromEnd n else literal n

/-- Reads a length from a schema description. -/
def ofJson (value : Json) : Except LengthError Length :=
  match value with
  | .number n =>
    match n.toInt64? with
    | some n => .ok (ofInt64 n)
    | none => .error (.invalidKind value)
  | .string s => readChars (s.toList.filter fun c => !isSpace c)
  | _ => .error (.invalidKind value)

end Length

end ByteRecord
