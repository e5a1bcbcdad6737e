import ByteRecord.Proofs.Floating.Integers

/-!
# Exact arithmetic on integers

A finite number may have the value of an integer; a zero of either sign has the value zero. Sums,
differences and products of two such numbers have the sum, difference and product of the integers as
long as this keeps within two to the 53, because nothing is lost when it is rounded. The integer part of
such a number is the integer itself.
-/

namespace ByteRecord

namespace Binary64

/-- The number has the value of the integer. -/
structure Represents (x : Binary64) (i : Int) : Prop where
  /-- The number is finite. -/
  finite : x.isFinite = true
  /-- Its units make up the integer. -/
  scaled_eq : x.scaled = i * format.one

variable {x y : Binary64} {i j : Int}

theorem isFinite_ofMagnitude (sign : Bool) {m : Nat} (h : m < format.infinity) :
    (ofMagnitude sign m).isFinite = true := by
  rw [isFinite, magnitude_ofMagnitude sign (magnitude_lt_signBit h)]
  exact decide_eq_true h

/-- A finite magnitude has the same units under either sign. -/
theorem scaled_ofMagnitude (sign : Bool) {m : Nat} (h : m < format.infinity) :
    (ofMagnitude sign m).scaled = if sign then -(format.units m : Int) else format.units m := by
  have hsign := magnitude_lt_signBit h
  rw [scaled, units, negative_ofMagnitude sign hsign, magnitude_ofMagnitude sign hsign]

/-- The product of two values is that of their units under the product of their signs. -/
theorem scaled_mul_scaled (x y : Binary64) :
    x.scaled * y.scaled = if x.negative != y.negative then -((x.units * y.units : Nat) : Int)
      else (x.units * y.units : Nat) := by
  rw [scaled, scaled, Int.natCast_mul]
  cases x.negative <;> cases y.negative
  · rfl
  · exact Int.mul_neg _ _
  · exact Int.neg_mul _ _
  · exact Int.neg_mul_neg _ _

theorem int_one_ne_zero : (format.one : Int) ≠ 0 := Int.natCast_ne_zero.mpr format.one_pos.ne'

theorem Represents.isNaN_eq (h : x.Represents i) : x.isNaN = false := by
  have hlt : x.magnitude < format.infinity := of_decide_eq_true h.finite
  exact decide_eq_false (Nat.lt_asymm hlt)

/-- The units of a number make up the size of the integer that it represents. -/
theorem Represents.units_eq (h : x.Represents i) : x.units = i.natAbs * format.one := by
  have hscaled : x.scaled.natAbs = x.units := by
    rw [scaled]
    split <;> omega
  rw [← hscaled, h.scaled_eq, Int.natAbs_mul, Int.natAbs_natCast]

/-- Every integer but zero is represented by one number only. -/
theorem Represents.eq_ofInt (h : x.Represents i) (hne : i ≠ 0) : x = ofInt i := by
  have hscaled : x.scaled ≠ 0 := by
    rw [h.scaled_eq]
    exact Int.mul_ne_zero hne int_one_ne_zero
  rw [ofInt, ← h.scaled_eq, roundScaled_scaled h.finite hscaled]

/-- A zero of either sign has the value zero. -/
theorem represents_zero (sign : Bool) : (zero sign).Represents 0 := by
  have hfinite : 0 < format.infinity := by
    rw [infinity_eq]
    omega
  have hunits : format.units 0 = 0 :=
    format.units_of_lt (Nat.mul_pos Nat.two_pos format.fractionBound_pos)
  refine ⟨isFinite_ofMagnitude sign hfinite, ?_⟩
  rw [zero, scaled_ofMagnitude sign hfinite, hunits, Int.zero_mul]
  cases sign <;> rfl

/-- Every integer in the range is represented. -/
theorem exists_represents (h : i.natAbs ≤ integerBound) : ∃ x : Binary64, x.Represents i := by
  obtain ⟨m, hm, hunits⟩ := exists_units_eq_mul_one h
  refine ⟨ofMagnitude (decide (i < 0)) m, isFinite_ofMagnitude _ hm, ?_⟩
  rw [scaled_ofMagnitude _ hm, hunits, Int.natCast_mul]
  by_cases hsign : i < 0
  · rw [decide_eq_true hsign, if_pos rfl, ← Int.neg_mul]
    exact congrArg (· * (format.one : Int)) (by omega)
  · rw [decide_eq_false hsign, if_neg Bool.false_ne_true]
    exact congrArg (· * (format.one : Int)) (by omega)

/-- Rounding an integer in the range loses nothing. -/
theorem represents_roundScaled (h : i.natAbs ≤ integerBound) (sign : Bool) :
    (roundScaled (i * format.one) sign).Represents i := by
  by_cases hzero : i = 0
  · rw [hzero, Int.zero_mul, roundScaled, if_pos rfl]
    exact represents_zero sign
  · obtain ⟨x, hx⟩ := exists_represents h
    have hscaled : x.scaled ≠ 0 := by
      rw [hx.scaled_eq]
      exact Int.mul_ne_zero hzero int_one_ne_zero
    rw [← hx.scaled_eq, roundScaled_scaled hx.finite hscaled]
    exact hx

/-- The number nearest to an integer in the range represents it. -/
theorem represents_ofInt (h : i.natAbs ≤ integerBound) : (ofInt i).Represents i := by
  rw [ofInt]
  exact represents_roundScaled h false

theorem represents_ofNat {n : Nat} (h : n ≤ integerBound) : (ofNat n).Represents n := by
  rw [ofNat]
  exact represents_ofInt h

/-- The quotient of its units and those of one is the integer itself. -/
theorem Represents.tdiv_eq (h : x.Represents i) : x.scaled.tdiv format.one = i := by
  rw [h.scaled_eq, Int.mul_tdiv_cancel i int_one_ne_zero]

/-- There is no fraction to lose. -/
theorem Represents.truncate_eq (h : x.Represents i) : x.truncate = i := by
  rw [truncate_eq_tdiv, h.tdiv_eq]

theorem Represents.add (hx : x.Represents i) (hy : y.Represents j)
    (h : (i + j).natAbs ≤ integerBound) : (x + y).Represents (i + j) := by
  have hsum : x + y = roundScaled (x.scaled + y.scaled) (x.negative && y.negative) := by
    change x.add y = _
    rw [Binary64.add, hx.isNaN_eq, hy.isNaN_eq, hx.finite, hy.finite,
      Bool.or_self, if_neg Bool.false_ne_true, Bool.and_self, if_pos rfl]
  rw [hsum, hx.scaled_eq, hy.scaled_eq, ← Int.add_mul]
  exact represents_roundScaled h _

theorem Represents.neg (h : x.Represents i) : x.neg.Represents (-i) := by
  have hfinite : x.magnitude < format.infinity := of_decide_eq_true h.finite
  refine ⟨isFinite_ofMagnitude _ hfinite, ?_⟩
  have hopposite : x.neg.scaled = -x.scaled := by
    rw [Binary64.neg, scaled_ofMagnitude _ hfinite, scaled, units]
    cases x.negative
    · rfl
    · exact (Int.neg_neg _).symm
  rw [hopposite, h.scaled_eq, Int.neg_mul]

theorem Represents.sub (hx : x.Represents i) (hy : y.Represents j)
    (h : (i - j).natAbs ≤ integerBound) : (x - y).Represents (i - j) := by
  have hdifference : x - y = x + y.neg := by
    change x.sub y = x.add y.neg
    rw [Binary64.sub, hy.isNaN_eq, if_neg Bool.false_ne_true]
  rw [hdifference, Int.sub_eq_add_neg]
  exact hx.add hy.neg (by rwa [← Int.sub_eq_add_neg])

theorem Represents.mul (hx : x.Represents i) (hy : y.Represents j)
    (h : (i * j).natAbs ≤ integerBound) : (x * y).Represents (i * j) := by
  have hproduct : x * y
      = round (x.negative != y.negative) (x.units * y.units) format.one := by
    change x.mul y = _
    rw [Binary64.mul, hx.isNaN_eq, hy.isNaN_eq, hx.finite, hy.finite,
      Bool.or_self, if_neg Bool.false_ne_true, Bool.and_self, if_pos rfl]
  obtain ⟨m, hm, hunits⟩ := exists_units_eq_mul_one h
  have hvalue : x.units * y.units = format.units m * format.one := by
    rw [hunits, hx.units_eq, hy.units_eq, Int.natAbs_mul]
    ring
  rw [hproduct, round, hvalue, format.nearest_units format.one_pos hm]
  refine ⟨isFinite_ofMagnitude _ hm, ?_⟩
  have hscaled := scaled_mul_scaled x y
  rw [hx.scaled_eq, hy.scaled_eq, hvalue, Int.natCast_mul] at hscaled
  rw [scaled_ofMagnitude _ hm]
  refine Int.eq_of_mul_eq_mul_right int_one_ne_zero ?_
  calc (if (x.negative != y.negative) = true then -(format.units m : Int) else format.units m)
        * format.one
      = if (x.negative != y.negative) = true then -((format.units m : Int) * format.one)
          else format.units m * format.one := by
        split
        · exact Int.neg_mul _ _
        · rfl
    _ = i * j * format.one * format.one := by
        rw [← hscaled]
        ring

end Binary64

end ByteRecord
