import ByteRecord.Digits
import ByteRecord.Json.Numeral

/-!
# JSON tokens

A text is split into tokens by a machine that reads one character at a time, so that reading is a
plain fold over the text. The machine refuses what strict JSON refuses within a token: unknown
words, incomplete numbers, control characters and unpaired surrogates in quoted text. A token that
ends in front of a refused character is still delivered: it comes first.
-/

namespace ByteRecord

namespace Json

/-- A token of JSON text. -/
inductive Token where
  /-- The start of an object. -/
  | openObject
  /-- The end of an object. -/
  | closeObject
  /-- The start of an array. -/
  | openArray
  /-- The end of an array. -/
  | closeArray
  /-- What separates items or members. -/
  | comma
  /-- What separates a name from its value. -/
  | colon
  /-- A null, a truth value or a number. -/
  | scalar (value : Json)
  /-- A quoted text, which is a name or a value. -/
  | text (value : String)

namespace Token

/-- Where the scanner stands. Texts under way are kept with their newest character first. -/
inductive Mode where
  /-- Between tokens. -/
  | between
  /-- In a number. -/
  | number (phase : Number.Phase) (read : List Char)
  /-- In a bare word. -/
  | word (read : List Char)
  /-- In a quoted text. -/
  | text (read : List Char)
  /-- After a backslash in a quoted text. -/
  | escape (read : List Char)
  /-- After a backslash and a `u`; `digits` hexadecimal digits of value `unit` are read. A
  leading surrogate that came right before is `high`. -/
  | unit (read : List Char) (high : Option Nat) (digits unit : Nat)
  /-- After the escape of a leading surrogate, before the backslash that must follow. -/
  | surrogate (read : List Char) (high : Nat)
  /-- After that backslash, before the `u` that must follow. -/
  | surrogateEscape (read : List Char) (high : Nat)

/-- White space between tokens. -/
def isSpace (c : Char) : Bool := c == ' ' || c == '\t' || c == '\n' || c == '\r'

/-- The token of a single character. -/
def punctuation? (c : Char) : Option Token :=
  if c = '\x7b' then some openObject
  else if c = '\x7d' then some closeObject
  else if c = '[' then some openArray
  else if c = ']' then some closeArray
  else if c = ',' then some comma
  else if c = ':' then some colon
  else none

/-- The value that a bare word names. -/
def word? (s : List Char) : Option Token :=
  if s = "null".toList then some (scalar .null)
  else if s = "true".toList then some (scalar (.bool true))
  else if s = "false".toList then some (scalar (.bool false))
  else none

/-- The character that a letter after a backslash stands for. -/
def unescape? (c : Char) : Option Char :=
  if c = '"' then some '"'
  else if c = '\\' then some '\\'
  else if c = '/' then some '/'
  else if c = 'b' then some '\x08'
  else if c = 'f' then some '\x0c'
  else if c = 'n' then some '\n'
  else if c = 'r' then some '\r'
  else if c = 't' then some '\t'
  else none

/-- Starts at a character between tokens: the token that this character is, and the mode behind it
unless it is refused. -/
def start (c : Char) : List Token × Option Mode :=
  match punctuation? c, Number.Phase.first? c with
  | some token, _ => ([token], some .between)
  | none, some phase => ([], some (.number phase [c]))
  | none, none =>
    if isSpace c then ([], some .between)
    else if c = '"' then ([], some (.text []))
    else if c.isLower then ([], some (.word [c]))
    else ([], none)

/-- The mode after a whole escape of a 16-bit unit: a leading surrogate waits for the trailing one
that must follow it, and a trailing one may only follow a leading one. -/
def endUnit? (read : List Char) (high : Option Nat) (unit : Nat) : Option Mode :=
  let leading := 0xD800 ≤ unit ∧ unit < 0xDC00
  let trailing := 0xDC00 ≤ unit ∧ unit < 0xE000
  match high with
  | some high =>
    if trailing then
      some (.text (Char.ofNat (0x10000 + (high - 0xD800) * 0x400 + (unit - 0xDC00)) :: read))
    else none
  | none =>
    if leading then some (.surrogate read unit)
    else if trailing then none
    else some (.text (Char.ofNat unit :: read))

/-- The tokens that end where the text ends or a character outside them stands. -/
def finish? : Mode → Option (List Token)
  | .between => some []
  | .number phase read =>
    if phase.isComplete then some [scalar (.number (Number.ofChars read.reverse))] else none
  | .word read => (word? read.reverse).map ([·])
  | _ => none

/-- Ends the token before a character and starts anew at the character. -/
def restart (mode : Mode) (c : Char) : List Token × Option Mode :=
  match finish? mode with
  | none => ([], none)
  | some ended =>
    let (started, mode) := start c
    (ended ++ started, mode)

/-- Reads one character of quoted text: the token that it completes, and the mode behind it unless
it is refused. -/
def stepText : Mode → Char → List Token × Option Mode
  | .text read, c =>
    if c = '"' then ([text (String.ofList read.reverse)], some .between)
    else if c = '\\' then ([], some (.escape read))
    else if c.toNat < 0x20 then ([], none)
    else ([], some (.text (c :: read)))
  | .escape read, c =>
    if c = 'u' then ([], some (.unit read none 0 0))
    else ([], (unescape? c).map fun c => .text (c :: read))
  | .unit read high digits unit, c =>
    match hexValue? c with
    | none => ([], none)
    | some value =>
      let unit := unit * 16 + value
      if digits = 3 then ([], endUnit? read high unit)
      else ([], some (.unit read high (digits + 1) unit))
  | .surrogate read high, c =>
    ([], if c = '\\' then some (.surrogateEscape read high) else none)
  | .surrogateEscape read high, c =>
    ([], if c = 'u' then some (.unit read (some high) 0 0) else none)
  | _, _ => ([], none)

/-- Reads one character: the tokens that it completes, and the mode behind it unless it is
refused. -/
def step : Mode → Char → List Token × Option Mode
  | .between, c => start c
  | .number phase read, c =>
    match phase.next? c with
    | some phase => ([], some (.number phase (c :: read)))
    | none => restart (.number phase read) c
  | .word read, c =>
    if c.isLower then ([], some (.word (c :: read))) else restart (.word read) c
  | mode, c => stepText mode c

end Token

end Json

end ByteRecord
