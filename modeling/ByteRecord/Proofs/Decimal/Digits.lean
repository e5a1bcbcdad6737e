import ByteRecord.Decimal.Layout
import ByteRecord.Digits
import Mathlib.Data.List.Induction
import Mathlib.Data.List.TakeDrop
import Mathlib.Tactic.Ring

/-!
# Digits that read back

The digits of a number spell this number. Zeros in front of digits do not count, and each zero behind
them multiplies by ten. Reading within a bound divides the bound where it could have multiplied the
value, and still it refuses exactly the runs whose number exceeds the bound.
-/

namespace ByteRecord

open DecimalLayout

/-- What is taken off the front of a text ends where the next character is of another kind. -/
theorem span_append {kind : Char → Bool} {front back : List Char}
    (hfront : ∀ c ∈ front, kind c = true) (hback : ∀ c ∈ back.head?, kind c = false) :
    (front ++ back).span kind = (front, back) := by
  rw [List.span_eq_takeWhile_dropWhile, List.takeWhile_append_of_pos hfront,
    List.dropWhile_append_of_pos hfront]
  cases back with
  | nil => rw [List.takeWhile_nil, List.dropWhile_nil, List.append_nil]
  | cons c rest =>
    have hc : ¬ kind c = true := Bool.eq_false_iff.mp (hback c rfl)
    rw [List.takeWhile_cons_of_neg hc, List.dropWhile_cons_of_neg hc, List.append_nil]

theorem decimalNat_digits (n : Nat) : decimalNat (digits n) = n :=
  Nat.ofDigitChars_ten_toDigits

theorem digits_ne_nil (n : Nat) : digits n ≠ [] := Nat.toDigits_ne_nil

theorem isDigit_of_mem_digits {n : Nat} {c : Char} (h : c ∈ digits n) : c.isDigit = true :=
  Nat.isDigit_of_mem_toDigits (by omega) (by omega) h

theorem isDigit_of_mem_zeros {count : Nat} {c : Char} (h : c ∈ zeros count) :
    c.isDigit = true := by
  rw [List.eq_of_mem_replicate h]
  rfl

theorem allDigits_iff {s : List Char} :
    allDigits s = true ↔ s ≠ [] ∧ ∀ c ∈ s, c.isDigit = true := by
  rw [allDigits, Bool.and_eq_true, Bool.not_eq_true', List.isEmpty_eq_false_iff, List.all_eq_true]

theorem allDigits_digits (n : Nat) : allDigits (digits n) = true :=
  allDigits_iff.mpr ⟨digits_ne_nil n, fun _ h => isDigit_of_mem_digits h⟩

/-- Digits in front count as many powers of ten as digits follow. -/
theorem decimalNat_append (front back : List Char) :
    decimalNat (front ++ back) = decimalNat front * 10 ^ back.length + decimalNat back := by
  rw [decimalNat, Nat.ofDigitChars_append, Nat.ofDigitChars_eq_ofDigitChars_zero, Nat.mul_comm]
  rfl

theorem decimalNat_zeros (count : Nat) : decimalNat (zeros count) = 0 := by
  rw [decimalNat, zeros, Nat.ofDigitChars_replicate_zero, Nat.mul_zero]

theorem decimalNat_zeros_append (count : Nat) (s : List Char) :
    decimalNat (zeros count ++ s) = decimalNat s := by
  rw [decimalNat_append, decimalNat_zeros, Nat.zero_mul, Nat.zero_add]

theorem decimalNat_append_zeros (s : List Char) (count : Nat) :
    decimalNat (s ++ zeros count) = decimalNat s * 10 ^ count := by
  rw [decimalNat_append, decimalNat_zeros, Nat.add_zero, zeros, List.length_replicate]

theorem digitValue_le {c : Char} (h : c.isDigit = true) : digitValue c ≤ 9 := by
  have hrange := Char.isDigit_iff_toNat.mp h
  have hzero : '0'.toNat = 48 := rfl
  have hnine : '9'.toNat = 57 := rfl
  rw [digitValue, hzero]
  omega

theorem digits_digitValue {c : Char} (h : c.isDigit = true) : digits (digitValue c) = [c] := by
  have hrange := Char.isDigit_iff_toNat.mp h
  have hzero : '0'.toNat = 48 := rfl
  have hlow : digitValue c < 10 := Nat.lt_succ_of_le (digitValue_le h)
  have hchar : (digitValue c).digitChar = c := by
    rw [Char.ext_iff, ← UInt32.toNat_inj]
    refine (Nat.toNat_digitChar_of_lt_ten hlow).trans ?_
    rw [digitValue, hzero]
    have hvalue : c.toNat = c.val.toNat := rfl
    omega
  rw [digits, Nat.toDigits_of_lt_base hlow, hchar]

/-- A run of digits is the digits of its number with zeros in front, or zeros only. -/
theorem eq_zeros_append_digits {s : List Char} (hs : ∀ c ∈ s, c.isDigit = true) :
    (∃ count, s = zeros count)
      ∨ 0 < decimalNat s ∧ ∃ count, s = zeros count ++ digits (decimalNat s) := by
  induction s using List.reverseRecOn with
  | nil => exact Or.inl ⟨0, rfl⟩
  | append_singleton front c ih =>
    have hc := hs c (List.mem_append_right _ List.mem_cons_self)
    have hvalue : decimalNat (front ++ [c]) = 10 * decimalNat front + digitValue c := by
      rw [decimalNat_append, List.length_singleton, pow_one, Nat.mul_comm, decimalNat,
        decimalNat, Nat.ofDigitChars_cons, Nat.ofDigitChars_nil, Nat.mul_zero, Nat.zero_add]
      rfl
    rw [hvalue]
    rcases ih fun d hd => hs d (List.mem_append_left _ hd) with ⟨count, hfront⟩ | ⟨hpos, count, hfront⟩
    · rw [hfront, decimalNat_zeros, Nat.mul_zero, Nat.zero_add]
      by_cases hzero : digitValue c = 0
      · have hdigits := digits_digitValue hc
        rw [hzero] at hdigits
        rw [← hdigits]
        exact Or.inl ⟨count + 1, (List.replicate_succ' ..).symm⟩
      · exact Or.inr ⟨Nat.pos_of_ne_zero hzero, count, by rw [digits_digitValue hc]⟩
    · refine Or.inr ⟨by omega, count, ?_⟩
      have hlow : digitValue c < 10 := Nat.lt_succ_of_le (digitValue_le hc)
      have hjoin : digits (decimalNat front) ++ digits (digitValue c)
          = digits (10 * decimalNat front + digitValue c) :=
        Nat.toDigits_append_toDigits (by omega) hpos hlow
      rw [← hjoin, digits_digitValue hc, ← List.append_assoc, ← hfront]

/-- A run of digits is its number with zeros in front of it. -/
theorem exists_zeros_append_digits {s : List Char} (run : allDigits s = true) :
    ∃ count, s = zeros count ++ digits (decimalNat s) := by
  obtain ⟨hne, hs⟩ := allDigits_iff.mp run
  rcases eq_zeros_append_digits hs with ⟨count, rfl⟩ | ⟨-, hcount⟩
  · cases count with
    | zero => exact absurd rfl hne
    | succ count =>
      refine ⟨count, ?_⟩
      rw [decimalNat_zeros]
      exact List.replicate_succ' ..
  · exact hcount

/-- Reading goes on exactly as long as the number stays within the bound. -/
theorem boundedNatFrom?_eq {bound : Nat} (hbound : 9 ≤ bound) {s : List Char}
    (hs : ∀ c ∈ s, c.isDigit = true) {value : Nat} (hvalue : value ≤ bound) :
    boundedNatFrom? bound value s
      = if Nat.ofDigitChars 10 s value ≤ bound then some (Nat.ofDigitChars 10 s value)
        else none := by
  induction s generalizing value with
  | nil =>
    rw [boundedNatFrom?, Nat.ofDigitChars_nil, if_pos hvalue]
  | cons c rest ih =>
    obtain ⟨hc, hrest⟩ := List.forall_mem_cons.mp hs
    have hdigit := digitValue_le hc
    have hnext : Nat.ofDigitChars 10 (c :: rest) value
        = Nat.ofDigitChars 10 rest (value * 10 + digitValue c) := by
      rw [Nat.ofDigitChars_cons, Nat.mul_comm]
      rfl
    rw [boundedNatFrom?, hnext]
    by_cases hfits : value * 10 + digitValue c ≤ bound
    · rw [if_pos (by omega), ih hrest hfits]
    · -- The digits that follow do not make the number smaller again.
      have hgrows : value * 10 + digitValue c
          ≤ Nat.ofDigitChars 10 rest (value * 10 + digitValue c) := by
        rw [Nat.ofDigitChars_eq_ofDigitChars_zero]
        exact Nat.le_add_right_of_le (Nat.le_mul_of_pos_left _ (Nat.pow_pos (by omega)))
      rw [if_neg (by omega), if_neg (by omega)]

/-- A run of digits is read if its number is within the bound. -/
theorem boundedNat?_eq {bound : Nat} (hbound : 9 ≤ bound) {s : List Char}
    (hs : ∀ c ∈ s, c.isDigit = true) :
    boundedNat? bound s = if decimalNat s ≤ bound then some (decimalNat s) else none :=
  boundedNatFrom?_eq hbound hs (Nat.zero_le bound)

end ByteRecord
