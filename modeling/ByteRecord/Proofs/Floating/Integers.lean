import ByteRecord.Proofs.Floating.Widening

/-!
# Integers as floating-point numbers

The significand of a 64-bit number has 53 bits, so every natural number up to two to the 53 is
one of them. The conversion keeps their order, and what is less than the number of one of them has no
greater integer part.
-/

namespace ByteRecord

/-- Up to this bound, every natural number is a 64-bit floating-point number. -/
def integerBound : Nat := 9007199254740992

namespace Binary64

theorem nearest_lt_signBit (num den : Nat) : format.nearest num den < format.signBit := by
  have h : format.nearest num den ≤ format.infinity := Nat.min_le_right _ _
  rw [infinity_eq] at h
  rw [signBit_eq]
  omega

/-- The number nearest to a natural number is that of the nearest magnitude. -/
theorem ofNat_eq (n : Nat) : ofNat n = ofMagnitude false (format.nearest (n * format.one) 1) := by
  rw [ofNat, ofInt, roundScaled, ← Int.natCast_mul, Int.natAbs_natCast]
  split
  · rename_i hzero
    rw [Int.natCast_eq_zero] at hzero
    rw [hzero, format.nearest_of_lt (by decide), zero]
  · rw [round, decide_eq_false (by omega)]

/-- A natural number in the range is a whole number of units of a finite magnitude. -/
theorem exists_units_eq_mul_one {n : Nat} (h : n ≤ integerBound) :
    ∃ m, m < format.infinity ∧ format.units m = n * format.one := by
  rw [integerBound] at h
  rw [infinity_eq, FloatFormat.one_eq]
  by_cases hlast : n = 9007199254740992
  · -- The last one needs a bit more than the significand has, but its lowest bit is zero.
    obtain ⟨m, hunits, hm⟩ := format.exists_units_eq (format.unitExponent + 1) 4503599627370496
      (by rw [fractionBound_eq]; omega)
    rw [fractionBound_eq, unitExponent_eq] at hm
    refine ⟨m, by omega, ?_⟩
    rw [hunits, hlast, pow_succ]
    ring
  · obtain ⟨m, hunits, hm⟩ := format.exists_units_eq format.unitExponent n
      (by rw [fractionBound_eq]; omega)
    rw [fractionBound_eq, unitExponent_eq] at hm
    exact ⟨m, by omega, hunits⟩

/-- A natural number in the range is the number of that magnitude. -/
theorem exists_ofNat_eq {n : Nat} (h : n ≤ integerBound) :
    ∃ m, m < format.infinity ∧ format.units m = n * format.one
      ∧ ofNat n = ofMagnitude false m := by
  obtain ⟨m, hm, hunits⟩ := exists_units_eq_mul_one h
  have hnearest := format.nearest_units Nat.one_pos hm
  rw [hunits, Nat.mul_one] at hnearest
  exact ⟨m, hm, hunits, by rw [ofNat_eq, hnearest]⟩

variable {n : Nat}

theorem magnitude_lt_signBit {m : Nat} (h : m < format.infinity) : m < format.signBit := by
  rw [infinity_eq] at h
  rw [signBit_eq]
  omega

/-- The integer part of a finite number is its quotient, toward zero. -/
theorem truncate_eq_tdiv (x : Binary64) : x.truncate = x.scaled.tdiv format.one := by
  unfold truncate scaled
  split
  · rw [Int.neg_tdiv, ← Int.ofNat_tdiv]
  · exact Int.ofNat_tdiv _ _

/-- The conversion keeps the order. -/
theorem less_ofNat {k : Nat} (hlt : n < k) (hk : k ≤ integerBound) :
    (ofNat n).less (ofNat k) = true := by
  obtain ⟨first, hfirst, hunits, heq⟩ := exists_ofNat_eq (hlt.le.trans hk)
  obtain ⟨second, hsecond, hunits', heq'⟩ := exists_ofNat_eq hk
  have hscaled : n * format.one < k * format.one := (Nat.mul_lt_mul_right format.one_pos).mpr hlt
  have hne : first ≠ second := fun hsame => by
    rw [hsame] at hunits
    omega
  have hle : first ≤ second := by
    have hnearest := format.nearest_units Nat.one_pos hfirst
    rw [Nat.mul_one] at hnearest
    rw [← hnearest]
    exact format.nearest_le (by omega)
  rw [heq, heq', less, isNaN, isNaN, rank, rank,
    negative_ofMagnitude false (magnitude_lt_signBit hfirst),
    negative_ofMagnitude false (magnitude_lt_signBit hsecond),
    magnitude_ofMagnitude false (magnitude_lt_signBit hfirst),
    magnitude_ofMagnitude false (magnitude_lt_signBit hsecond)]
  simp only [Bool.false_eq_true, if_false, Bool.and_eq_true, Bool.not_eq_true', decide_eq_false_iff_not,
    decide_eq_true_eq]
  omega

/-- What is less than the number nearest to a natural number has no greater integer part. -/
theorem truncate_le_of_less {x : Binary64} {n : Nat} (h : x.less (ofNat n) = true) :
    x.truncate ≤ n := by
  rw [truncate]
  cases hsign : x.negative with
  | true =>
    generalize x.units / format.one = whole
    simp only [if_true]
    omega
  | false =>
    by_contra hlt
    simp only [Bool.false_eq_true, if_false, Int.not_le, Nat.cast_lt] at hlt
    have hunits : n * format.one ≤ format.units x.magnitude :=
      (Nat.mul_le_mul_right _ hlt.le).trans (Nat.div_mul_le_self x.units format.one)
    have hnearest := format.nearest_le hunits
    have hrank : (ofNat n).rank ≤ x.rank := by
      rw [ofNat_eq, rank, rank, negative_ofMagnitude false (nearest_lt_signBit _ _),
        magnitude_ofMagnitude false (nearest_lt_signBit _ _), hsign]
      simp only [Bool.false_eq_true, if_false]
      omega
    simp only [less, Bool.and_eq_true, decide_eq_true_eq] at h
    omega

end Binary64

end ByteRecord
