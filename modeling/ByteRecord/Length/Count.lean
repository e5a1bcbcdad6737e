import ByteRecord.Error
import ByteRecord.WordRange

/-!
# What an array length comes to

A length is worked out in floating-point arithmetic against the fields of the enclosing struct that
are known so far. `Length.evaluate` gives the count of every length that does not depend on the
position in the data, and `Length.resolve` also those that count from the end.
-/

namespace ByteRecord

/-- The fields that an array length may read: those of the nearest enclosing struct, if there is
one. -/
abbrev Scope := Option Members

/-- The scope that a JSON value offers: its members if it is an object. -/
def Json.scope : Json → Scope
  | object members => some members
  | _ => none

/-- The number that a field of the scope holds. -/
def Scope.number (scope : Scope) (name : String) : Except LookupError Binary64 :=
  match scope with
  | none => .error (.outsideStruct name)
  | some members =>
    match members.find? name with
    | none => .error (.undefinedField name)
    | some (.number n) => .ok n.toBinary64
    | some _ => .error (.notNumeric name)

/-- The number that an operand stands for. -/
def Operand.number (scope : Scope) : Operand → Except LookupError Binary64
  | count n => .ok (Binary64.ofInt n.toInt)
  | field name => scope.number name

namespace Length

/-- The whole number of elements that a number stands for: its integer part, unless the number is
negative, not finite or does not fit 64 bits. -/
def count (length : Length) (x : Binary64) : Except BoundsError Nat :=
  if !x.isFinite || decide (x.scaled < 0) then .error (.invalidCount length.text x)
  else if (wordCount : Int) ≤ x.truncate then .error (.hugeCount length.text)
  else .ok x.truncate.toNat

/-- Works out the terms of an expression from left to right, from a running value. -/
def evaluateTerms (scope : Scope) (value : Binary64) :
    List Term → Except LookupError Binary64
  | [] => .ok value
  | term :: rest => do
    let operand ← term.operand.number scope
    evaluateTerms scope (term.op.apply value operand) rest

/-- The number that the length comes to, for lengths that do not depend on the position in the
data. An expression starts from zero. -/
def number? (scope : Scope) : Length → Option (Except LookupError Binary64)
  | literal n => some (.ok (Binary64.ofInt n.toInt))
  | field name => some (scope.number name)
  | expression terms => some (evaluateTerms scope (Binary64.zero false) terms)
  | fromEnd _ => none
  | remainder => none

/-- The count of a length that does not depend on the position in the data; the others have
none. -/
def evaluate (length : Length) (scope : Scope) : Except Error (Option Nat) :=
  match length.number? scope with
  | none => .ok none
  | some (.error cause) => .error (.schema (.lookup cause))
  | some (.ok x) =>
    match length.count x with
    | .ok n => .ok (some n)
    | .error cause => .error (.bounds cause)

/-- The count of every length but the rest of the data, which has none. A length from the end takes
away from the bytes that remain. -/
def resolve (length : Length) (scope : Scope) (remaining : Nat) : Except Error (Option Nat) :=
  match length with
  | fromEnd back =>
    match length.count (Binary64.ofNat remaining + Binary64.ofInt back.toInt) with
    | .ok n => .ok (some n)
    | .error cause => .error (.bounds cause)
  | length => length.evaluate scope

end Length

end ByteRecord
