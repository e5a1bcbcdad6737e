import ByteRecord.Decimal.Shortest
import ByteRecord.Proofs.Floating.Widening

/-!
# Numerals of equal value

What a numeral is rounded to depends on its value alone: the exponents that are settled without a
quotient are settled as the quotient would settle them. Moving powers of ten between the digits and
the exponent therefore changes nothing, and the fewest digits of a finite number read back as the
number.
-/

namespace ByteRecord

namespace Decimal

variable {d : Decimal}

/-- Three binary places are less than one decimal place. -/
theorem two_pow_le_ten_pow {bits places : Nat} (h : bits ≤ 3 * places) :
    2 ^ bits ≤ 10 ^ places := calc
  2 ^ bits ≤ 2 ^ (3 * places) := Nat.pow_le_pow_right (by omega) h
  _ = (2 ^ 3) ^ places := pow_mul _ _ _
  _ ≤ 10 ^ places := Nat.pow_le_pow_left (by omega) places

theorem fraction_snd_pos (d : Decimal) : 0 < d.fraction.2 := Nat.pow_pos (by omega)

/-- A numeral that lies too far below the least positive number is less than half of it. -/
theorem two_mul_lt_of_isTiny (h : d.isTiny = true) :
    2 * (d.fraction.1 * Binary64.format.one) < d.fraction.2 := by
  rw [isTiny, decide_eq_true_eq, farExponent] at h
  obtain ⟨places, hplaces, hexponent⟩ : ∃ places, 400 < places
      ∧ (-d.exponent).toNat = (d.digits.log2 + 1) + places :=
    ⟨(-d.exponent).toNat - (d.digits.log2 + 1), by omega, by omega⟩
  have hwhole : d.exponent.toNat = 0 := by omega
  have hdigits : d.digits < 2 ^ (d.digits.log2 + 1) := Nat.lt_log2_self
  have hunits : 2 ^ (Binary64.format.unitExponent + 1) ≤ 10 ^ places :=
    two_pow_le_ten_pow (by rw [Binary64.unitExponent_eq]; omega)
  rw [fraction, hwhole, hexponent, FloatFormat.one_eq]
  simp only [Nat.pow_eq, pow_zero, Nat.mul_one]
  calc
    2 * (d.digits * 2 ^ Binary64.format.unitExponent)
        = d.digits * 2 ^ (Binary64.format.unitExponent + 1) := by ring
    _ < 2 ^ (d.digits.log2 + 1) * 2 ^ (Binary64.format.unitExponent + 1) :=
      Nat.mul_lt_mul_of_pos_right hdigits (Nat.two_pow_pos _)
    _ ≤ 10 ^ (d.digits.log2 + 1) * 10 ^ places :=
      Nat.mul_le_mul (Nat.pow_le_pow_left (by omega) _) hunits
    _ = 10 ^ (d.digits.log2 + 1 + places) := (pow_add _ _ _).symm

/-- A numeral whose last digit is too large already exceeds all exponents. -/
theorem le_of_isHuge (hdigits : d.digits ≠ 0) (h : d.isHuge = true) :
    2 ^ (Binary64.format.fractionBits + 2 ^ Binary64.format.exponentBits) * d.fraction.2
      ≤ d.fraction.1 * Binary64.format.one := by
  rw [isHuge, decide_eq_true_eq, farExponent] at h
  obtain ⟨places, hplaces, hexponent⟩ : ∃ places, 400 < places ∧ d.exponent.toNat = places :=
    ⟨d.exponent.toNat, by omega, rfl⟩
  have hwhole : (-d.exponent).toNat = 0 := by omega
  have hbits : Binary64.format.fractionBits + 2 ^ Binary64.format.exponentBits
      ≤ 3 * places + Binary64.format.unitExponent := by
    have hvalue : Binary64.format.fractionBits + 2 ^ Binary64.format.exponentBits = 2100 := rfl
    rw [hvalue, Binary64.unitExponent_eq]
    omega
  rw [fraction, hwhole, hexponent, FloatFormat.one_eq]
  simp only [Nat.pow_eq, pow_zero, Nat.mul_one]
  calc
    2 ^ (Binary64.format.fractionBits + 2 ^ Binary64.format.exponentBits)
        ≤ 2 ^ (3 * places + Binary64.format.unitExponent) :=
      Nat.pow_le_pow_right (by omega) hbits
    _ = 2 ^ (3 * places) * 2 ^ Binary64.format.unitExponent := pow_add _ _ _
    _ ≤ 10 ^ places * 2 ^ Binary64.format.unitExponent :=
      Nat.mul_le_mul_right _ (two_pow_le_ten_pow (le_refl _))
    _ ≤ d.digits * 10 ^ places * 2 ^ Binary64.format.unitExponent :=
      Nat.mul_le_mul_right _ (Nat.le_mul_of_pos_left _ (Nat.pos_of_ne_zero hdigits))

/-- Every numeral is rounded as its quotient is. -/
theorem magnitude_eq_nearest (d : Decimal) :
    d.magnitude = Binary64.format.nearest (d.fraction.1 * Binary64.format.one) d.fraction.2 := by
  -- Each clamp answers what the quotient would have been rounded to.
  unfold magnitude
  by_cases hdigits : d.digits = 0
  · have hzero : 2 * (d.fraction.1 * Binary64.format.one) < d.fraction.2 := by
      have hpos := d.fraction_snd_pos
      have hnone : d.fraction.1 = 0 := by rw [fraction, hdigits, Nat.zero_mul]
      rwa [hnone, Nat.zero_mul, Nat.mul_zero]
    rw [hdigits, Binary64.format.nearest_of_lt hzero]
    rfl
  · by_cases htiny : d.isTiny = true
    · rw [htiny, Bool.or_true, if_pos rfl,
        Binary64.format.nearest_of_lt (two_mul_lt_of_isTiny htiny)]
    · rw [if_neg (by simp [hdigits, htiny])]
      by_cases hhuge : d.isHuge = true
      · rw [if_pos hhuge,
          Binary64.format.nearest_of_le d.fraction_snd_pos (le_of_isHuge hdigits hhuge)]
      · rw [if_neg hhuge]

/-- Numerals of equal value are rounded to the same magnitude. -/
theorem magnitude_congr {other : Decimal}
    (h : d.fraction.1 * other.fraction.2 = other.fraction.1 * d.fraction.2) :
    d.magnitude = other.magnitude := by
  rw [magnitude_eq_nearest, magnitude_eq_nearest]
  refine Binary64.format.nearest_congr d.fraction_snd_pos other.fraction_snd_pos ?_
  rw [Nat.mul_right_comm, h, Nat.mul_right_comm]

/-- Powers of ten may stand in the digits or in the exponent. -/
theorem magnitude_shift (n k : Nat) (exponent : Int) :
    magnitude ⟨n * 10 ^ k, exponent⟩ = magnitude ⟨n, exponent + k⟩ := by
  refine magnitude_congr ?_
  have hexponents : k + exponent.toNat + (-(exponent + k)).toNat
      = (exponent + k).toNat + (-exponent).toNat := by omega
  simp only [fraction, Nat.pow_eq]
  calc
    n * 10 ^ k * 10 ^ exponent.toNat * 10 ^ (-(exponent + k)).toNat
        = n * 10 ^ (k + exponent.toNat + (-(exponent + k)).toNat) := by ring
    _ = n * 10 ^ ((exponent + k).toNat + (-exponent).toNat) := by rw [hexponents]
    _ = n * 10 ^ (exponent + k).toNat * 10 ^ (-exponent).toNat := by ring

theorem magnitude_trim_go (steps : Nat) (d : Decimal) :
    (trim.go steps d).magnitude = d.magnitude := by
  induction steps generalizing d with
  | zero => rfl
  | succ steps ih =>
    rw [trim.go]
    split
    · rename_i h
      have hdigits : d.digits / 10 * 10 ^ 1 = d.digits := by omega
      rw [ih, ← Int.natCast_one, ← magnitude_shift, hdigits]
    · rfl

/-- Zeros at the end may be taken off. -/
theorem magnitude_trim (d : Decimal) : d.trim.magnitude = d.magnitude := magnitude_trim_go _ d

end Decimal

namespace Binary64

variable {x : Binary64}

/-- The exact numeral of a finite number reads back as the number. -/
theorem magnitude_exactDecimal (h : x.isFinite = true) :
    x.exactDecimal.magnitude = x.magnitude := by
  have hfinite : x.magnitude < format.infinity := of_decide_eq_true h
  have hwhole : (-(format.unitExponent : Int)).toNat = 0 := by omega
  have hpart : (- -(format.unitExponent : Int)).toNat = format.unitExponent := by omega
  have hfraction : x.exactDecimal.fraction
      = (x.units * 5 ^ format.unitExponent, 10 ^ format.unitExponent) := by
    rw [Decimal.fraction, exactDecimal, hwhole, hpart]
    simp only [Nat.pow_eq, pow_zero, Nat.mul_one]
  have hunits : x.units * 5 ^ format.unitExponent * format.one
      = format.units x.magnitude * 10 ^ format.unitExponent := by
    rw [FloatFormat.one_eq, Nat.mul_assoc, ← Nat.mul_pow, units]
  rw [Decimal.magnitude_eq_nearest, hfraction, hunits]
  exact format.nearest_units (Nat.pow_pos (by omega)) hfinite

/-- The fewest digits of a finite number read back as the number. -/
theorem magnitude_shortest (h : x.isFinite = true) : x.shortest.magnitude = x.magnitude := by
  unfold shortest
  rw [Decimal.magnitude_trim]
  -- Numerals with few digits are tested by reading them, so what was found reads back.
  cases hfound : (List.range enoughDigits).findSome? fun fewer => x.decimalOfCount? (fewer + 1) with
  | none => exact magnitude_exactDecimal h
  | some d =>
    obtain ⟨fewer, -, hcount⟩ := List.exists_of_findSome?_eq_some hfound
    have hreads := List.find?_some hcount
    exact beq_iff_eq.mp hreads

end Binary64

end ByteRecord
