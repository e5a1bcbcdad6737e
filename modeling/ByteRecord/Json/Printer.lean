import ByteRecord.Decimal.Layout
import ByteRecord.Json.Basic

/-!
# Written form of JSON values

`Json.compact` writes a value without spaces, `Json.indented` with one item a line. Texts are
written raw except for quotes, backslashes and control characters below the space. Which numeral
stands for a floating-point number is up to the library that writes it, so the printer of these
numbers is a parameter, here and wherever a number is put into a text.
-/

namespace ByteRecord

/-- A printer of floating-point numbers. -/
class RealPrinter where
  /-- The text of a floating-point number. -/
  text : Binary64 → List Char

namespace Number

/-- The decimal digits of an integer behind its sign. -/
def integerText (n : Int) : List Char :=
  if n < 0 then '-' :: DecimalLayout.digits n.natAbs else DecimalLayout.digits n.natAbs

/-- The text of a number. -/
def text [RealPrinter] : Number → List Char
  | unsigned n => DecimalLayout.digits n.toNat
  | signed n => integerText n.toInt
  | real x => RealPrinter.text x

end Number

namespace Json

/-- The letter that stands for a character after a backslash, for those that have one. -/
def shortEscape? (c : Char) : Option Char :=
  if c = '"' then some '"'
  else if c = '\\' then some '\\'
  else if c = '\x08' then some 'b'
  else if c = '\x0c' then some 'f'
  else if c = '\n' then some 'n'
  else if c = '\r' then some 'r'
  else if c = '\t' then some 't'
  else none

/-- A character as it stands in a quoted text. Controls without a letter take four hexadecimal
digits, of which the first two are zeros. -/
def escapeChar (c : Char) : List Char :=
  match shortEscape? c with
  | some letter => ['\\', letter]
  | none =>
    if c.toNat < 0x20 then
      ['\\', 'u', '0', '0', (c.toNat / 16).digitChar, (c.toNat % 16).digitChar]
    else [c]

/-- A text between quotes. -/
def quote (s : String) : List Char :=
  '"' :: s.toList.flatMap escapeChar ++ ['"']

variable [RealPrinter]

mutual

/-- The value without spaces. -/
def compactChars : Json → List Char
  | null => "null".toList
  | bool true => "true".toList
  | bool false => "false".toList
  | number n => n.text
  | string s => quote s
  | array items => '[' :: compactItems items ++ [']']
  | object members => '\x7b' :: compactMembers members ++ ['\x7d']

/-- Items with commas between them. -/
def compactItems : List Json → List Char
  | [] => []
  | [item] => compactChars item
  | item :: rest => compactChars item ++ ',' :: compactItems rest

/-- Members with commas between them. -/
def compactMembers : List (String × Json) → List Char
  | [] => []
  | [(name, value)] => quote name ++ ':' :: compactChars value
  | (name, value) :: rest => quote name ++ ':' :: compactChars value ++ ',' :: compactMembers rest

end

/-- The value without spaces. -/
def compact (value : Json) : String := String.ofList value.compactChars

/-- How many spaces each level is indented by. -/
def indentWidth : Nat := 2

/-- The start of a line at the given depth. -/
def newline (depth : Nat) : List Char := '\n' :: List.replicate (indentWidth * depth) ' '

mutual

/-- The value with one item a line; `depth` counts the containers around it. -/
def indentedChars (depth : Nat) : Json → List Char
  | array (item :: rest) =>
    '[' :: newline (depth + 1) ++ indentedItems (depth + 1) (item :: rest)
      ++ newline depth ++ [']']
  | object (member :: rest) =>
    '\x7b' :: newline (depth + 1) ++ indentedMembers (depth + 1) (member :: rest)
      ++ newline depth ++ ['\x7d']
  | array [] => "[]".toList
  | object [] => ['\x7b', '\x7d']
  | null => "null".toList
  | bool true => "true".toList
  | bool false => "false".toList
  | number n => n.text
  | string s => quote s

/-- Items, each on a line of its own. -/
def indentedItems (depth : Nat) : List Json → List Char
  | [] => []
  | [item] => indentedChars depth item
  | item :: rest => indentedChars depth item ++ ',' :: newline depth ++ indentedItems depth rest

/-- Members, each on a line of its own. -/
def indentedMembers (depth : Nat) : List (String × Json) → List Char
  | [] => []
  | [(name, value)] => quote name ++ ':' :: ' ' :: indentedChars depth value
  | (name, value) :: rest =>
    quote name ++ ':' :: ' ' :: indentedChars depth value ++ ',' :: newline depth
      ++ indentedMembers depth rest

end

/-- The value with one item a line. -/
def indented (value : Json) : String := String.ofList (value.indentedChars 0)

end Json

end ByteRecord
