import ByteRecord.Proofs.Length.Reading
import ByteRecord.Proofs.Scalar.Words

/-!
# Counts as numbers and as digits

A count may be given as a number or as the text of its digits. Up to the greatest signed 64-bit integer
the two are read as the same literal length. Beyond it the digits are refused as too large, while the
number wraps and is taken for a distance from the end of the data.
-/

namespace ByteRecord

open DecimalLayout

theorem Number.lt_of_integer? {number : Number} {i : Int} (h : number.integer? = some i) :
    i < 2 ^ 64 := by
  cases number with
  | unsigned n =>
    have hlt := n.toNat_lt
    obtain rfl : (n.toNat : Int) = i := Option.some.inj h
    omega
  | signed n =>
    have hlt := n.toInt_lt
    obtain rfl : n.toInt = i := Option.some.inj h
    omega
  | real x => cases h

namespace Length

/-- Two values are read alike as the count `n`: both are the literal length `n`, or neither is a
length. -/
def ReadAlike (value other : Json) (n : Nat) : Prop :=
  (∃ count : Int64, count.toInt = n ∧ ofJson value = .ok (literal count)
      ∧ ofJson other = .ok (literal count))
    ∨ ∃ cause otherCause, ofJson value = .error cause ∧ ofJson other = .error otherCause

/-- The digits of a number are read as a literal length if it is a signed 64-bit one. -/
theorem ofJson_digits (n : Nat) :
    ofJson (.string (String.ofList (digits n)))
      = if n < 2 ^ 63 then .ok (literal (Int64.ofNat n))
        else .error (.overflow (String.ofList (digits n))) := by
  have hkept : (digits n).filter (fun c => !isSpace c) = digits n :=
    List.filter_eq_self.mpr fun c hc => by
      rw [(not_isOperator_of_isDigit (isDigit_of_mem_digits hc)).2]
      rfl
  have hword : greatestSigned = 2 ^ 63 - 1 := rfl
  rw [ofJson, String.toList_ofList, hkept, readChars_digits (allDigits_digits n),
    readCount_of_digits _ (allDigits_digits n), decimalNat_digits]
  by_cases hbound : n < 2 ^ 63
  · rw [if_pos (by omega), if_pos hbound]
    rfl
  · rw [if_neg (by omega), if_neg hbound]
    rfl

/-- An integer is read as the signed word that it reduces to. -/
theorem ofJson_of_integer {number : Number} {i : Int} (h : number.integer? = some i) :
    ofJson (.number number) = .ok (ofInt64 (Int64.ofInt i)) := by
  rw [ofJson, Number.toInt64?_of_integer h]

/-- The word of a signed 64-bit number that is not negative is a literal length. -/
theorem ofInt64_of_lt {n : Nat} (h : n < 2 ^ 63) :
    ofInt64 (Int64.ofInt n) = literal (Int64.ofNat n) := by
  have hsign : ¬ Int64.ofInt n < 0 := by
    rw [Int64.lt_iff_toInt_lt, Int64.toInt_zero, Int64.toInt_ofInt_of_le (by omega) (by omega)]
    omega
  rw [ofInt64, if_neg hsign, Int64.ofInt_eq_ofNat]

/-- The word of a greater number is negative, so it counts from the end. -/
theorem ofInt64_of_le {n : Nat} (hle : 2 ^ 63 ≤ n) (hlt : n < 2 ^ 64) :
    ofInt64 (Int64.ofInt n) = fromEnd (Int64.ofInt n)
      ∧ (Int64.ofInt n).toInt = (n : Int) - 2 ^ 64 := by
  have hvalue : (Int64.ofInt n).toInt = (n : Int) - 2 ^ 64 := by
    have hsize : Int64.size = 2 ^ 64 := rfl
    rw [Int64.toInt_ofInt, Int.bmod_eq_emod, hsize]
    split <;> omega
  have hsign : Int64.ofInt n < 0 := by
    rw [Int64.lt_iff_toInt_lt, Int64.toInt_zero, hvalue]
    omega
  exact ⟨if_pos hsign, hvalue⟩

/-- A number and its digits are read alike exactly up to the greatest signed 64-bit integer. From there
on the number is a distance from the end of the data and the digits are no length. -/
theorem ofJson_number_digits_iff {number : Number} {n : Nat}
    (integer : number.integer? = some (n : Int)) :
    (ReadAlike (.number number) (.string (String.ofList (digits n))) n ↔ n < 2 ^ 63)
      ∧ (2 ^ 63 ≤ n → ∃ back : Int64, back.toInt = (n : Int) - 2 ^ 64
          ∧ ofJson (.number number) = .ok (fromEnd back)
          ∧ ofJson (.string (String.ofList (digits n)))
            = .error (.overflow (String.ofList (digits n)))) := by
  have hnumber := ofJson_of_integer integer
  have htext := ofJson_digits n
  have hlt : n < 2 ^ 64 := by
    have hword := Number.lt_of_integer? integer
    omega
  refine ⟨⟨fun halike => ?_, fun hsmall => ?_⟩, fun hlarge => ?_⟩
  · by_contra hlarge
    rw [if_neg hlarge] at htext
    obtain ⟨count, -, -, hliteral⟩ | ⟨cause, otherCause, hrefused, -⟩ := halike
    · rw [htext] at hliteral
      cases hliteral
    · rw [hnumber] at hrefused
      cases hrefused
  · rw [if_pos hsmall] at htext
    rw [ofInt64_of_lt hsmall] at hnumber
    exact Or.inl ⟨Int64.ofNat n, Int64.toInt_ofNat_of_lt hsmall, hnumber, htext⟩
  · obtain ⟨hback, hvalue⟩ := ofInt64_of_le hlarge hlt
    rw [if_neg (by omega)] at htext
    rw [hback] at hnumber
    exact ⟨_, hvalue, hnumber, htext⟩

/-- The greatest signed 64-bit integer, a literal length in either form. -/
theorem ofJson_number_digits_greatest :
    ReadAlike (.number (.unsigned 9223372036854775807)) (.string "9223372036854775807")
      9223372036854775807 := by
  have hinteger : (Number.unsigned 9223372036854775807).integer?
      = some ((9223372036854775807 : Nat) : Int) := rfl
  have hdigits : String.ofList (digits 9223372036854775807) = "9223372036854775807" := by
    decide +kernel
  have halike := (ofJson_number_digits_iff hinteger).1.mpr (by decide)
  rwa [hdigits] at halike

/-- The next number is no literal length in either form, but only its digits are refused. -/
theorem ofJson_number_digits_beyond :
    ¬ ReadAlike (.number (.unsigned 9223372036854775808)) (.string "9223372036854775808")
      9223372036854775808 := by
  have hnumber : ofJson (.number (.unsigned 9223372036854775808))
      = .ok (fromEnd (-9223372036854775808)) := rfl
  rintro (⟨count, -, hliteral, -⟩ | ⟨cause, otherCause, hrefused, -⟩)
  · rw [hnumber] at hliteral
    cases hliteral
  · rw [hnumber] at hrefused
    cases hrefused

end Length

end ByteRecord
