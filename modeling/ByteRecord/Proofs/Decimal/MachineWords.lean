import ByteRecord.Proofs.Length.Reading
import ByteRecord.Proofs.Tag.Grammar

/-!
# Digits in machine words

A width is gathered in an unsigned 64-bit word and a count in a signed one, digit by digit. Here every
operation of that loop is done in its machine type and fails where the type does not hold its exact
result. The loop never fails this way: what it gives on a run of digits is what reading within a bound
gives, the number of the run if the type holds it and a refusal otherwise.
-/

namespace ByteRecord

/-- The integers that a machine type holds, all digits among them. -/
structure MachineType where
  /-- The least integer of the type. -/
  least : Int
  /-- The greatest integer of the type. -/
  greatest : Nat
  /-- Zero is not below the type. -/
  least_nonpos : least ≤ 0
  /-- The type holds every digit. -/
  nine_le : 9 ≤ greatest

namespace MachineType

/-- Signed 32-bit integers, in which characters are subtracted. -/
def signed32 : MachineType := ⟨-2147483648, 2147483647, by decide, by decide⟩

/-- Unsigned 64-bit words, in which widths are gathered. -/
def unsigned64 : MachineType := ⟨0, greatestWord, by decide, by decide⟩

/-- Signed 64-bit words, in which counts are gathered. -/
def signed64 : MachineType := ⟨-signedBound, greatestSigned, by decide, by decide⟩

/-- The result of an operation in the type: there is none if the type does not hold the exact one, in
which case the operation overflows. -/
def result? (type : MachineType) (exact : Int) : Option Int :=
  if type.least ≤ exact ∧ exact ≤ type.greatest then some exact else none

/-- Puts a digit behind a value, or refuses it if the value is beyond a tenth of what the digit leaves
of the range. There is no outcome if an operation overflows. -/
def readDigit? (type : MachineType) (value : Int) (c : Char) : Option (Option Int) := do
  let digit ← signed32.result? ((c.toNat : Int) - '0'.toNat)
  let digit ← type.result? digit
  let room ← type.result? (type.greatest - digit)
  let limit ← type.result? (room.tdiv 10)
  if limit < value then return none
  let shifted ← type.result? (value * 10)
  let next ← type.result? (shifted + digit)
  return some next

/-- Puts digits behind a value, one after the other, up to one that is refused. -/
def readDigits? (type : MachineType) (value : Int) : List Char → Option (Option Int)
  | [] => some (some value)
  | c :: rest => do
    match ← type.readDigit? value c with
    | none => return none
    | some next => type.readDigits? next rest

variable {type : MachineType} {s : List Char} {value : Nat}

/-- A result from zero up to the greatest integer is within the type. -/
theorem result?_natCast {n : Nat} (h : n ≤ type.greatest) : type.result? n = some (n : Int) := by
  have hleast := type.least_nonpos
  rw [result?, if_pos (by omega)]

/-- No operation on a digit overflows, and the digit is refused as reading within the bound refuses
it. -/
theorem readDigit?_eq {c : Char} (hc : c.isDigit = true) (hvalue : value ≤ type.greatest) :
    type.readDigit? value c
      = some (if value ≤ (type.greatest - digitValue c) / 10
          then some ((value * 10 + digitValue c : Nat) : Int) else none) := by
  have hlow := digitValue_le hc
  have hnine := type.nine_le
  have hrange := Char.isDigit_iff_toNat.mp hc
  have hzero : '0'.toNat = 48 := rfl
  have hdigit : (c.toNat : Int) - '0'.toNat = digitValue c := by
    rw [digitValue]
    omega
  have hroom : (type.greatest : Int) - digitValue c = (type.greatest - digitValue c : Nat) := by
    omega
  have hlimit : ((type.greatest - digitValue c : Nat) : Int).tdiv 10
      = ((type.greatest - digitValue c) / 10 : Nat) := Int.ofNat_tdiv _ 10
  have hint : digitValue c ≤ signed32.greatest := Nat.le_trans hlow signed32.nine_le
  rw [readDigit?, hdigit, result?_natCast hint, Option.bind_eq_bind, Option.bind_some,
    result?_natCast (by omega), Option.bind_some, hroom, result?_natCast (by omega),
    Option.bind_some, hlimit, result?_natCast (by omega), Option.bind_some]
  by_cases hfits : value ≤ (type.greatest - digitValue c) / 10
  · -- The quotient leaves room for the multiplication and for the sum behind it.
    have hshifted : (value : Int) * 10 = (value * 10 : Nat) := by omega
    have hnext : ((value * 10 : Nat) : Int) + digitValue c = (value * 10 + digitValue c : Nat) := by
      omega
    rw [if_neg (by omega), if_pos hfits, hshifted, result?_natCast (by omega),
      Option.bind_some, hnext, result?_natCast (by omega)]
    rfl
  · rw [if_pos (by omega), if_neg hfits]
    rfl

/-- No operation on a run of digits overflows, and the run comes to what reading within the bound
makes of it. -/
theorem readDigits?_eq (hs : ∀ c ∈ s, c.isDigit = true) (hvalue : value ≤ type.greatest) :
    type.readDigits? value s
      = some ((boundedNatFrom? type.greatest value s).map fun n : Nat => (n : Int)) := by
  induction s generalizing value with
  | nil => rfl
  | cons c rest ih =>
    obtain ⟨hc, hrest⟩ := List.forall_mem_cons.mp hs
    have hlow := digitValue_le hc
    rw [readDigits?, boundedNatFrom?, readDigit?_eq hc hvalue, Option.bind_eq_bind,
      Option.bind_some]
    by_cases hfits : value ≤ (type.greatest - digitValue c) / 10
    · have hnine := type.nine_le
      rw [if_pos hfits, if_pos hfits]
      exact ih hrest (by omega)
    · rw [if_neg hfits, if_neg hfits]
      rfl

/-- No operation on a run of digits overflows; the run comes to its number if the type holds it. -/
theorem readDigits?_zero (hs : ∀ c ∈ s, c.isDigit = true) :
    type.readDigits? 0 s
      = some (if decimalNat s ≤ type.greatest then some (decimalNat s : Int) else none) := by
  have hread : type.readDigits? 0 s = _ := readDigits?_eq hs (Nat.zero_le type.greatest)
  rw [hread, ← boundedNat?, boundedNat?_eq type.nine_le hs]
  by_cases hfits : decimalNat s ≤ type.greatest
  · rw [if_pos hfits, if_pos hfits, Option.map_some]
  · rw [if_neg hfits, if_neg hfits, Option.map_none]

end MachineType

/-- What reads a number up to a bound, and refuses it beyond, accepts exactly the numbers up to the bound,
and gives each of them as it is. -/
theorem reads_up_to_bound {ε ω : Type} {read : Except ε ω} {cause : ε} {word : ω} {n bound : Nat}
    (value : ω → Int) (h : read = if n ≤ bound then .ok word else .error cause)
    (exact : n ≤ bound → value word = n) :
    ((∃ w, read = .ok w) ↔ n ≤ bound) ∧ (∀ w, read = .ok w → value w = n)
      ∧ (bound < n → read = .error cause)
      ∧ (if n ≤ bound then some (n : Int) else none) = read.toOption.map value := by
  rw [h]
  by_cases hfits : n ≤ bound
  · rw [if_pos hfits, if_pos hfits]
    refine ⟨iff_of_true ⟨word, rfl⟩ hfits, fun w hw => ?_, fun hbeyond => ?_, ?_⟩
    · rw [← Except.ok.inj hw, exact hfits]
    · exact absurd hfits (Nat.not_le_of_lt hbeyond)
    · rw [Except.toOption, Option.map_some, exact hfits]
  · rw [if_neg hfits, if_neg hfits]
    refine ⟨iff_of_false ?_ hfits, fun w hw => ?_, fun _ => rfl, rfl⟩
    · rintro ⟨w, hw⟩
      cases hw
    · cases hw

variable {s : List Char}

/-- A run of digits, with any number of zeros in front, is read exactly or refused. As a width it is
accepted exactly if its number is an unsigned 64-bit word, as a count exactly if it is a signed one; what
is read is the number itself. And the loop that puts one digit behind the other in a word of this type
gives the same while none of its operations overflows. -/
theorem digits_read_exactly (tag : String) (text : List Char) (run : allDigits s = true) :
    (((∃ width, Tag.readWidth tag s = .ok width) ↔ decimalNat s ≤ 2 ^ 64 - 1)
      ∧ (∀ width, Tag.readWidth tag s = .ok width → width.toNat = decimalNat s)
      ∧ (2 ^ 64 - 1 < decimalNat s → Tag.readWidth tag s = .error (.paddingOverflow tag))
      ∧ MachineType.unsigned64.readDigits? 0 s
        = some ((Tag.readWidth tag s).toOption.map fun width => (width.toNat : Int)))
    ∧ ((∃ count, Length.readCount text s = .ok count) ↔ decimalNat s ≤ 2 ^ 63 - 1)
      ∧ (∀ count, Length.readCount text s = .ok count → count.toInt = decimalNat s)
      ∧ (2 ^ 63 - 1 < decimalNat s →
          Length.readCount text s = .error (.overflow (String.ofList text)))
      ∧ MachineType.signed64.readDigits? 0 s
        = some ((Length.readCount text s).toOption.map Int64.toInt) := by
  have hdigits := (allDigits_iff.mp run).2
  have hunsigned : ∀ n ≤ greatestWord, ((UInt64.ofNat n).toNat : Int) = n := by
    intro n hn
    have hsize : UInt64.size = greatestWord + 1 := rfl
    rw [UInt64.toNat_ofNat_of_lt' (by omega)]
  have hsigned : ∀ n ≤ greatestSigned, (Int64.ofNat n).toInt = n := by
    intro n hn
    have hbound : greatestSigned = 2 ^ 63 - 1 := rfl
    exact Int64.toInt_ofNat_of_lt (by omega)
  obtain ⟨hwidth, hwide, hpadding, hwidthLoop⟩ :=
    reads_up_to_bound (fun width : UInt64 => (width.toNat : Int))
      (Tag.readWidth_of_digits tag run) (hunsigned _)
  obtain ⟨hcount, hcounts, hoverflow, hcountLoop⟩ :=
    reads_up_to_bound Int64.toInt (Length.readCount_of_digits text run) (hsigned _)
  refine ⟨⟨hwidth, fun width h => Int.ofNat_inj.mp (hwide width h), hpadding, ?_⟩,
    hcount, hcounts, hoverflow, ?_⟩
  · rw [← hwidthLoop]
    exact MachineType.readDigits?_zero hdigits
  · rw [← hcountLoop]
    exact MachineType.readDigits?_zero hdigits

/-- The last numbers that are read, behind zeros, and the first ones that are refused. -/
theorem digits_read_exactly_limits :
    (∃ width, Tag.readWidth "string:" "0018446744073709551615".toList = .ok width)
    ∧ Tag.readWidth "string:" "18446744073709551616".toList = .error (.paddingOverflow "string:")
    ∧ (∃ count, Length.readCount [] "009223372036854775807".toList = .ok count)
    ∧ Length.readCount [] "9223372036854775808".toList = .error (.overflow "") := by
  obtain ⟨⟨haccepted, -⟩, -⟩ := digits_read_exactly "string:" []
    (show allDigits "0018446744073709551615".toList = true by decide)
  obtain ⟨⟨-, -, hrefused, -⟩, -⟩ := digits_read_exactly "string:" []
    (show allDigits "18446744073709551616".toList = true by decide)
  obtain ⟨-, hcounted, -⟩ := digits_read_exactly "string:" []
    (show allDigits "009223372036854775807".toList = true by decide)
  obtain ⟨-, -, -, hbeyond, -⟩ := digits_read_exactly "string:" []
    (show allDigits "9223372036854775808".toList = true by decide)
  exact ⟨haccepted.mpr (by decide +kernel), hrefused (by decide +kernel),
    hcounted.mpr (by decide +kernel), hbeyond (by decide +kernel)⟩

end ByteRecord
