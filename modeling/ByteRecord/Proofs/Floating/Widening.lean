import ByteRecord.Floating.Binary32
import ByteRecord.Proofs.Floating.Rounding

/-!
# Widening loses nothing

A word is its sign and its magnitude. Widening a 32-bit number keeps its value exactly, so rounding
the wide number gives the narrow one back; only a NaN does not survive, since widening makes it
quiet.
-/

namespace ByteRecord

namespace Binary64

theorem signBit_eq : format.signBit = 9223372036854775808 := rfl

theorem infinity_eq : format.infinity = 9218868437227405312 := rfl

theorem fractionBound_eq : format.fractionBound = 4503599627370496 := rfl

theorem quietBit_eq : format.quietBit = 2251799813685248 := rfl

theorem unitExponent_eq : format.unitExponent = 1074 := rfl

theorem negative_ofMagnitude (sign : Bool) {m : Nat} (h : m < format.signBit) :
    (ofMagnitude sign m).negative = sign := by
  rw [signBit_eq] at h
  unfold negative ofMagnitude
  rw [UInt64.toNat_ofNat', signBit_eq]
  cases sign
  · simp only [Bool.false_eq_true, if_false, decide_eq_false_iff_not]
    omega
  · simp only [if_true, decide_eq_true_eq]
    omega

theorem magnitude_ofMagnitude (sign : Bool) {m : Nat} (h : m < format.signBit) :
    (ofMagnitude sign m).magnitude = m := by
  rw [signBit_eq] at h
  unfold magnitude ofMagnitude
  rw [UInt64.toNat_ofNat', signBit_eq]
  cases sign
  · simp only [Bool.false_eq_true, if_false]
    omega
  · simp only [if_true]
    omega

/-- A word is determined by its sign and its magnitude. -/
theorem ofMagnitude_eta (x : Binary64) : ofMagnitude x.negative x.magnitude = x := by
  obtain ⟨bits⟩ := x
  have hlt := bits.toNat_lt
  have hword : bits.toNat % format.signBit
      + (if decide (format.signBit ≤ bits.toNat) = true then format.signBit else 0)
      = bits.toNat := by
    rw [signBit_eq]
    split
    · rename_i h
      rw [decide_eq_true_eq] at h
      omega
    · rename_i h
      rw [decide_eq_true_eq] at h
      omega
  unfold ofMagnitude negative magnitude
  rw [hword, UInt64.ofNat_toNat]

/-- Rounding the value of a finite number that is no zero gives the number back. -/
theorem roundScaled_scaled {x : Binary64} (hx : x.isFinite = true) (hne : x.scaled ≠ 0)
    (sign : Bool) : roundScaled x.scaled sign = x := by
  have hvalue : decide (x.scaled < 0) = x.negative ∧ x.scaled.natAbs = x.units := by
    rw [scaled] at hne ⊢
    cases x.negative
    · simp only [Bool.false_eq_true, if_false] at hne ⊢
      exact ⟨decide_eq_false (by omega), by omega⟩
    · simp only [if_true] at hne ⊢
      exact ⟨decide_eq_true (by omega), by omega⟩
  have hnearest := format.nearest_units Nat.one_pos (of_decide_eq_true hx)
  rw [Nat.mul_one, ← units] at hnearest
  rw [roundScaled, if_neg hne, round, hvalue.1, hvalue.2, hnearest, ofMagnitude_eta]

end Binary64

namespace Binary32

theorem signBit_eq : format.signBit = 2147483648 := rfl

theorem infinity_eq : format.infinity = 2139095040 := rfl

theorem fractionBound_eq : format.fractionBound = 8388608 := rfl

theorem unitExponent_eq : format.unitExponent = 149 := rfl

/-- A word is determined by its sign and its magnitude. -/
theorem ofMagnitude_eta (x : Binary32) : ofMagnitude x.negative x.magnitude = x := by
  obtain ⟨bits⟩ := x
  have hlt := bits.toNat_lt
  have hword : bits.toNat % format.signBit
      + (if decide (format.signBit ≤ bits.toNat) = true then format.signBit else 0)
      = bits.toNat := by
    rw [signBit_eq]
    split
    · rename_i h
      rw [decide_eq_true_eq] at h
      omega
    · rename_i h
      rw [decide_eq_true_eq] at h
      omega
  unfold ofMagnitude negative magnitude
  rw [hword, UInt32.ofNat_toNat]

theorem magnitude_lt (x : Binary32) : x.magnitude < format.signBit :=
  Nat.mod_lt _ (by rw [signBit_eq]; omega)

/-- One is two to the 925 times as many units of a 64-bit number as of a 32-bit one. -/
theorem one_ratio : Binary64.format.one = 2 ^ 925 * format.one := by
  rw [FloatFormat.one_eq, FloatFormat.one_eq, Binary64.unitExponent_eq, unitExponent_eq, ← pow_add]

/-- The value of a finite 32-bit magnitude is that of a finite 64-bit one. -/
theorem exists_wide {m : Nat} (h : m < format.infinity) :
    ∃ wide, Binary64.format.units wide = format.units m * 2 ^ 925 ∧
      wide < Binary64.format.infinity := by
  have hbound := fractionBound_eq
  have hwide := Binary64.fractionBound_eq
  rw [infinity_eq] at h
  rw [Binary64.infinity_eq]
  rcases format.magnitude_cases m with hlow | ⟨s, k, hle, hlt, rfl⟩
  · obtain ⟨wide, hunits, hm⟩ := Binary64.format.exists_units_eq 925 m (by omega)
    exact ⟨wide, by rw [hunits, format.units_of_lt (by omega)], by omega⟩
  · obtain ⟨wide, hunits, hm⟩ := Binary64.format.exists_units_eq (k + 925) s (by omega)
    refine ⟨wide, by rw [hunits, format.units_of_significand hle hlt, pow_add, Nat.mul_assoc], ?_⟩
    rw [hbound] at hle hlt h
    rw [hwide] at hm
    omega

/-- Converting a finite magnitude to 64 bits and back gives it back, by way of a finite one. -/
theorem convert_convert {m : Nat} (h : m < format.infinity) :
    format.convert Binary64.format m < Binary64.format.infinity ∧
      Binary64.format.convert format (format.convert Binary64.format m) = m := by
  have hone := format.one_pos
  have hone' := Binary64.format.one_pos
  obtain ⟨wide, hunits, hwide⟩ := exists_wide h
  have hout : format.convert Binary64.format m = wide := by
    unfold FloatFormat.convert
    rw [if_pos h, one_ratio, ← Nat.mul_assoc, ← hunits]
    exact Binary64.format.nearest_units hone hwide
  have hback : Binary64.format.convert format wide = m := by
    unfold FloatFormat.convert
    rw [if_pos hwide, hunits, Nat.mul_assoc, ← one_ratio]
    exact format.nearest_units hone' h
  rw [hout]
  exact ⟨hwide, hback⟩

theorem convert_infinity :
    format.convert Binary64.format format.infinity = Binary64.format.infinity ∧
      Binary64.format.convert format Binary64.format.infinity = format.infinity := by
  decide

/-- The fraction of a NaN stays within the wider format and stays that of a NaN. -/
theorem convert_nan {m : Nat} (h : format.infinity < m) (hm : m < format.signBit) :
    Binary64.format.infinity < format.convert Binary64.format m ∧
      format.convert Binary64.format m < Binary64.format.signBit := by
  unfold FloatFormat.convert FloatFormat.carryPayload
  dsimp only
  rw [fractionBound_eq, Binary64.fractionBound_eq, Binary64.quietBit_eq]
  rw [infinity_eq] at h ⊢
  rw [signBit_eq] at hm
  rw [Binary64.infinity_eq, Binary64.signBit_eq, if_neg (by omega), if_neg (by omega)]
  split <;> omega

/-- The magnitude of the wide number keeps below the sign bit. -/
theorem convert_lt (x : Binary32) :
    format.convert Binary64.format x.magnitude < Binary64.format.signBit := by
  have hm := x.magnitude_lt
  have hinfinity : Binary64.format.infinity < Binary64.format.signBit := by
    rw [Binary64.infinity_eq, Binary64.signBit_eq]
    omega
  rcases Nat.lt_trichotomy x.magnitude format.infinity with h | h | h
  · exact (convert_convert h).1.trans hinfinity
  · rw [h, convert_infinity.1]
    exact hinfinity
  · exact (convert_nan h hm).2

/-- A wide number is a NaN only if the narrow one is. -/
theorem isNaN_widen (x : Binary32) : x.widen.isNaN = x.isNaN := by
  unfold widen isNaN Binary64.isNaN
  rw [Binary64.magnitude_ofMagnitude _ x.convert_lt, decide_eq_decide]
  rcases Nat.lt_trichotomy x.magnitude format.infinity with h | h | h
  · have hwide := (convert_convert h).1
    omega
  · rw [h, convert_infinity.1]
    omega
  · exact ⟨fun _ => h, fun _ => (convert_nan h x.magnitude_lt).1⟩

/-- Narrowing undoes widening on every number that is no NaN. -/
theorem narrow_widen (x : Binary32) (h : x.isNaN = false) : x.widen.narrow = x := by
  have hmagnitude : Binary64.format.convert format (format.convert Binary64.format x.magnitude)
      = x.magnitude := by
    rw [isNaN, decide_eq_false_iff_not] at h
    rcases Nat.lt_or_eq_of_le (Nat.le_of_not_lt h) with hlt | heq
    · exact (convert_convert hlt).2
    · rw [heq, convert_infinity.1, convert_infinity.2]
  unfold Binary64.narrow widen
  rw [Binary64.negative_ofMagnitude _ x.convert_lt, Binary64.magnitude_ofMagnitude _ x.convert_lt,
    hmagnitude, ofMagnitude_eta]

end Binary32

end ByteRecord
