import ByteRecord.Json.Token

/-!
# Reading JSON text

`Json.parse` reads a text token by token with a stack of the containers that are still open. The
first fault on the way is the one that is reported. A name that repeats within an object keeps its
first place and takes its last value. A number beyond the finite 64-bit floating-point numbers is a
fault of its own, found where the number stands as a value.
-/

namespace ByteRecord

namespace Json

/-- Why a text cannot be read. -/
inductive ReadError where
  /-- The text is not JSON. -/
  | malformed
  /-- A number is too large. -/
  | numberRange
  deriving DecidableEq

/-- The wording of the error. -/
def ReadError.message : ReadError → String
  | malformed => "[json.exception] the text is not valid JSON"
  | numberRange => "[json.exception] a number is out of range"

/-- A container that is still open, with what it holds so far. -/
inductive Frame where
  /-- An array, with its newest item first. -/
  | items (done : List Json)
  /-- An object that waits for the value of the member `name`. -/
  | member (done : Members) (name : String)

/-- What the reader has seen and may see next. The open containers have the innermost first. -/
inductive State where
  /-- A value must follow. -/
  | value (stack : List Frame)
  /-- An array has just started: a value or its end must follow. -/
  | firstItem (stack : List Frame)
  /-- An item is complete: a comma or the end of the array must follow. -/
  | afterItem (done : List Json) (stack : List Frame)
  /-- An object has just started: a name or its end must follow. -/
  | firstName (stack : List Frame)
  /-- A name must follow. -/
  | name (done : Members) (stack : List Frame)
  /-- A colon must follow the name. -/
  | colon (done : Members) (name : String) (stack : List Frame)
  /-- A member is complete: a comma or the end of the object must follow. -/
  | afterMember (done : Members) (stack : List Frame)
  /-- The whole value is complete. -/
  | complete (value : Json)

namespace State

/-- A value is complete: it goes into the innermost open container. -/
def supply (v : Json) : List Frame → State
  | [] => .complete v
  | .items done :: stack => .afterItem (v :: done) stack
  | .member done key :: stack => .afterMember (Members.set done key v) stack

/-- A value starts with the given token. -/
def begin (stack : List Frame) : Token → Except ReadError State
  | .openObject => .ok (.firstName stack)
  | .openArray => .ok (.firstItem stack)
  | .scalar (.number n) =>
    if n.isFinite then .ok (supply (.number n) stack) else .error .numberRange
  | .scalar v => .ok (supply v stack)
  | .text s => .ok (supply (.string s) stack)
  | _ => .error .malformed

/-- Reads one token. -/
def step : State → Token → Except ReadError State
  | .value stack, token => begin stack token
  | .firstItem stack, .closeArray => .ok (supply (.array []) stack)
  | .firstItem stack, token => begin (.items [] :: stack) token
  | .afterItem done stack, .comma => .ok (.value (.items done :: stack))
  | .afterItem done stack, .closeArray => .ok (supply (.array done.reverse) stack)
  | .firstName stack, .closeObject => .ok (supply (.object []) stack)
  | .firstName stack, .text s => .ok (.colon [] s stack)
  | .name done stack, .text s => .ok (.colon done s stack)
  | .colon done key stack, .colon => .ok (.value (.member done key :: stack))
  | .afterMember done stack, .comma => .ok (.name done stack)
  | .afterMember done stack, .closeObject => .ok (supply (.object done) stack)
  | _, _ => .error .malformed

/-- Reads some tokens. -/
def run : State → List Token → Except ReadError State
  | state, [] => .ok state
  | state, token :: rest =>
    match state.step token with
    | .ok state => run state rest
    | .error cause => .error cause

/-- The value, if it is complete. -/
def result : State → Except ReadError Json
  | .complete v => .ok v
  | _ => .error .malformed

/-- Reads characters from within the given token to the end of the text. -/
def readChars (mode : Token.Mode) (state : State) : List Char → Except ReadError Json
  | [] =>
    match Token.finish? mode with
    | some tokens => (state.run tokens).bind result
    | none => .error .malformed
  | c :: rest =>
    let (tokens, mode) := Token.step mode c
    match state.run tokens, mode with
    | .ok state, some mode => readChars mode state rest
    | .ok _, none => .error .malformed
    | .error cause, _ => .error cause

end State

/-- The value that a sequence of characters stands for. -/
def parseChars (s : List Char) : Except ReadError Json := State.readChars .between (.value []) s

/-- The value that a text stands for. -/
def parse (s : String) : Except ReadError Json := parseChars s.toList

/-- The value that a text in UTF-8 stands for. -/
def parseBytes (bytes : List UInt8) : Except ReadError Json :=
  match String.fromUTF8? ⟨bytes.toArray⟩ with
  | some s => parse s
  | none => .error .malformed

end Json

end ByteRecord
