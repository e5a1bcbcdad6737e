import ByteRecord.Decode.Record
import ByteRecord.Encode.Basic

/-!
# Comparing values

Whether two JSON values are the same can be decided, so what a codec makes of given data can be
evaluated and compared.
-/

namespace ByteRecord

namespace Json

mutual

/-- Decides whether two values are the same. -/
def decEq (a b : Json) : Decidable (a = b) :=
  match a, b with
  | .null, .null => isTrue rfl
  | .bool a, .bool b => decidable_of_iff (a = b) (by rw [bool.injEq])
  | .number a, .number b => decidable_of_iff (a = b) (by rw [number.injEq])
  | .string a, .string b => decidable_of_iff (a = b) (by rw [string.injEq])
  | .array a, .array b => @decidable_of_iff _ (a = b) (by rw [array.injEq]) (decEqItems a b)
  | .object a, .object b => @decidable_of_iff _ (a = b) (by rw [object.injEq]) (decEqMembers a b)
  | .null, .bool _ | .null, .number _ | .null, .string _ | .null, .array _ | .null, .object _
  | .bool _, .null | .bool _, .number _ | .bool _, .string _ | .bool _, .array _
  | .bool _, .object _ | .number _, .null | .number _, .bool _ | .number _, .string _
  | .number _, .array _ | .number _, .object _ | .string _, .null | .string _, .bool _
  | .string _, .number _ | .string _, .array _ | .string _, .object _ | .array _, .null
  | .array _, .bool _ | .array _, .number _ | .array _, .string _ | .array _, .object _
  | .object _, .null | .object _, .bool _ | .object _, .number _ | .object _, .string _
  | .object _, .array _ => isFalse nofun

/-- Decides whether two lists of values are the same. -/
def decEqItems (a b : List Json) : Decidable (a = b) :=
  match a, b with
  | [], [] => isTrue rfl
  | x :: xs, y :: ys =>
    @decidable_of_iff _ (x = y ∧ xs = ys) (by rw [List.cons.injEq])
      (@instDecidableAnd _ _ (decEq x y) (decEqItems xs ys))
  | [], _ :: _ | _ :: _, [] => isFalse nofun

/-- Decides whether two lists of members are the same. -/
def decEqMembers (a b : Members) : Decidable (a = b) :=
  match a, b with
  | [], [] => isTrue rfl
  | (m, x) :: xs, (n, y) :: ys =>
    @decidable_of_iff _ (m = n ∧ x = y ∧ xs = ys)
      (by rw [List.cons.injEq, Prod.mk.injEq, and_assoc])
      (@instDecidableAnd _ _ _ (@instDecidableAnd _ _ (decEq x y) (decEqMembers xs ys)))
  | [], _ :: _ | _ :: _, [] => isFalse nofun

end

instance : DecidableEq Json := decEq

end Json

deriving instance DecidableEq for Decoded, Encoded

end ByteRecord
