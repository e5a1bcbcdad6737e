import ByteRecord.Floating.Format
import Mathlib.Tactic.Positivity
import Mathlib.Tactic.Ring

/-!
# Exactness of rounding

A finite magnitude is a whole number of units, and rounding that number gives the magnitude back.
Conversely every short significand shifted to the left is the number of units of some magnitude.
Conversions between formats and integer arithmetic that stay within a format therefore lose nothing.
-/

namespace ByteRecord

/-- A quotient without remainder is not changed by rounding. -/
theorem roundHalfEven_mul (q den : Nat) (h : 0 < den) : roundHalfEven (q * den) den = q := by
  have hq : q * den / den = q := Nat.mul_div_cancel q h
  have hr : q * den % den = 0 := Nat.mul_mod_left q den
  unfold roundHalfEven
  rw [hq, hr, if_pos (by omega)]

/-- A common factor of the two sides of a quotient does not matter. -/
theorem roundHalfEven_mul_mul (num den : Nat) {k : Nat} (h : 0 < k) :
    roundHalfEven (num * k) (den * k) = roundHalfEven num den := by
  have htwice : 2 * (num % den * k) = 2 * (num % den) * k := (Nat.mul_assoc _ _ _).symm
  unfold roundHalfEven
  dsimp only
  rw [Nat.mul_div_mul_right _ _ h, Nat.mul_mod_mul_right, htwice]
  simp only [Nat.mul_lt_mul_right h]

/-- Less than half of one is rounded to zero. -/
theorem roundHalfEven_of_lt {num den : Nat} (h : 2 * num < den) : roundHalfEven num den = 0 := by
  have hlt : num < den := by omega
  unfold roundHalfEven
  rw [Nat.div_eq_of_lt hlt, Nat.mod_eq_of_lt hlt, if_pos h]

/-- A quotient that does not exceed a whole number is not rounded beyond it. -/
theorem roundHalfEven_le {num den q : Nat} (h : num ≤ q * den) : roundHalfEven num den ≤ q := by
  unfold roundHalfEven
  dsimp only
  rcases Nat.eq_zero_or_pos den with rfl | hden
  · rw [Nat.mul_zero, Nat.le_zero] at h
    subst h
    simp
  · have hfloor : num / den ≤ q := Nat.div_le_of_le_mul (by rwa [Nat.mul_comm])
    rcases Nat.lt_or_ge (num / den) q with hlt | hge
    · split
      · omega
      · split <;> omega
    · have hexact : num % den = 0 := by
        have hsplit := Nat.div_add_mod num den
        have hq : num / den = q := by omega
        rw [hq, Nat.mul_comm] at hsplit
        omega
      rw [hexact, if_pos (by omega)]
      exact hfloor

/-- Shifting a positive number to the left adds to its binary logarithm. -/
theorem log2_shift (s k : Nat) (h : s ≠ 0) : (s * 2 ^ k).log2 = s.log2 + k := by
  have hlow := Nat.log2_self_le h
  have hhigh := (Nat.log2_eq_iff h).mp rfl |>.2
  have hne : s * 2 ^ k ≠ 0 := Nat.mul_ne_zero h (by positivity)
  rw [Nat.log2_eq_iff hne]
  constructor
  · rw [pow_add]
    exact Nat.mul_le_mul_right _ hlow
  · rw [show s.log2 + k + 1 = s.log2 + 1 + k by omega, pow_add]
    exact Nat.mul_lt_mul_of_pos_right hhigh (by positivity)

namespace FloatFormat

/-- The weight of the hidden bit as a power. -/
theorem fractionBound_eq (format : FloatFormat) :
    format.fractionBound = 2 ^ format.fractionBits := rfl

theorem fractionBound_pos (format : FloatFormat) : 0 < format.fractionBound := by
  rw [fractionBound_eq]
  positivity

/-- One as a power of two. -/
theorem one_eq (format : FloatFormat) : format.one = 2 ^ format.unitExponent := rfl

theorem one_pos (format : FloatFormat) : 0 < format.one := by
  rw [one_eq]
  positivity

/-- Below twice the weight of the hidden bit a magnitude is its own number of units. -/
theorem units_of_lt (format : FloatFormat) {m : Nat} (h : m < 2 * format.fractionBound) :
    format.units m = m := by
  have hpos := format.fractionBound_pos
  unfold units
  by_cases hlow : m < format.fractionBound
  · rw [Nat.div_eq_of_lt hlow, Nat.mod_eq_of_lt hlow]
    rfl
  · have hone : m / format.fractionBound = 1 := by
      rw [Nat.div_eq_iff hpos]
      omega
    have hmod : m % format.fractionBound = m - format.fractionBound := by
      rw [Nat.mod_eq_sub_mod (by omega), Nat.mod_eq_of_lt (by omega)]
    rw [hone, hmod, if_neg (by omega), Nat.sub_self, Nat.pow_eq, pow_zero]
    omega

/-- A significand with its hidden bit set, on top of an exponent field, is shifted by it. -/
theorem units_of_significand (format : FloatFormat) {s k : Nat}
    (hlow : format.fractionBound ≤ s) (hhigh : s < 2 * format.fractionBound) :
    format.units (s + k * format.fractionBound) = s * 2 ^ k := by
  have hpos := format.fractionBound_pos
  have hsplit : s + k * format.fractionBound
      = (s - format.fractionBound) + (k + 1) * format.fractionBound := by
    rw [Nat.succ_mul]
    omega
  have hsmall : s - format.fractionBound < format.fractionBound := by omega
  have hdiv : (s + k * format.fractionBound) / format.fractionBound = k + 1 := by
    rw [hsplit, Nat.add_mul_div_right _ _ hpos, Nat.div_eq_of_lt hsmall, Nat.zero_add]
  have hmod : (s + k * format.fractionBound) % format.fractionBound
      = s - format.fractionBound := by
    rw [hsplit, Nat.add_mul_mod_self_right, Nat.mod_eq_of_lt hsmall]
  unfold units
  rw [hdiv, hmod, if_neg (by omega), Nat.add_sub_cancel, Nat.pow_eq,
    Nat.add_sub_cancel' hlow]

/-- Every magnitude is its own number of units, or a full significand on top of an exponent. -/
theorem magnitude_cases (format : FloatFormat) (m : Nat) :
    m < format.fractionBound ∨
      ∃ s k, format.fractionBound ≤ s ∧ s < 2 * format.fractionBound ∧
        m = s + k * format.fractionBound := by
  have hpos := format.fractionBound_pos
  by_cases h : m < format.fractionBound
  · exact Or.inl h
  · right
    have hdiv : 1 ≤ m / format.fractionBound := (Nat.one_le_div_iff hpos).mpr (by omega)
    have hmod : m % format.fractionBound < format.fractionBound := Nat.mod_lt _ hpos
    have hsum := Nat.div_add_mod' m format.fractionBound
    refine ⟨format.fractionBound + m % format.fractionBound,
      m / format.fractionBound - 1, by omega, by omega, ?_⟩
    have hmul : (m / format.fractionBound - 1) * format.fractionBound + format.fractionBound
        = m / format.fractionBound * format.fractionBound := by
      rw [← Nat.succ_mul, Nat.succ_eq_add_one, Nat.sub_add_cancel hdiv]
    omega

/-- A number of units that needs no bit below the significand is rounded to its own magnitude. -/
theorem nearest_eq (format : FloatFormat) {v s k den : Nat} (hden : 0 < den)
    (hv : v = s * 2 ^ k) (hexcess : v.log2 - format.fractionBits = k) :
    format.nearest (v * den) den = min (s + k * format.fractionBound) format.infinity := by
  have hquotient : v * den / den = v := Nat.mul_div_cancel v hden
  have hround : roundHalfEven (v * den) (den * Nat.pow 2 k) = s := by
    have hnum : v * den = s * (den * Nat.pow 2 k) := by
      rw [hv, Nat.pow_eq]
      ring
    rw [hnum]
    exact roundHalfEven_mul s _ (Nat.mul_pos hden (by rw [Nat.pow_eq]; positivity))
  unfold nearest excess
  dsimp only
  rw [hquotient, hexcess, hround]

/-- Rounding the units of a finite magnitude gives the magnitude back. -/
theorem nearest_units (format : FloatFormat) {m den : Nat} (hden : 0 < den)
    (h : m < format.infinity) : format.nearest (format.units m * den) den = m := by
  rcases format.magnitude_cases m with hlow | ⟨s, k, hle, hlt, rfl⟩
  · have hunits : format.units m = m := format.units_of_lt (by omega)
    have hexcess : m.log2 - format.fractionBits = 0 := by
      rw [fractionBound_eq] at hlow
      by_cases hm : m = 0
      · rw [hm, Nat.log2_zero, Nat.zero_sub]
      · have hlog := (Nat.log2_lt hm).mpr hlow
        omega
    rw [hunits, format.nearest_eq hden (s := m) (k := 0) (by ring) hexcess]
    omega
  · have hne : s ≠ 0 := by
      have hpos := format.fractionBound_pos
      omega
    have hlog : s.log2 = format.fractionBits := by
      rw [Nat.log2_eq_iff hne, pow_succ, ← fractionBound_eq]
      omega
    rw [format.units_of_significand hle hlt,
      format.nearest_eq hden rfl (by rw [log2_shift s k hne, hlog, Nat.add_sub_cancel_left])]
    omega

/-- A common factor of the two sides of a quotient does not matter. -/
theorem nearest_mul_mul (format : FloatFormat) (num den : Nat) {k : Nat} (h : 0 < k) :
    format.nearest (num * k) (den * k) = format.nearest num den := by
  have hexcess : num * k / (den * k) = num / den := Nat.mul_div_mul_right _ _ h
  unfold nearest
  dsimp only
  rw [hexcess, Nat.mul_right_comm den k, roundHalfEven_mul_mul _ _ h]

/-- Equal quotients are rounded to the same magnitude. -/
theorem nearest_congr (format : FloatFormat) {num den num' den' : Nat} (hden : 0 < den)
    (hden' : 0 < den') (h : num * den' = num' * den) :
    format.nearest num den = format.nearest num' den' := by
  rw [← format.nearest_mul_mul num den hden', h, Nat.mul_comm den,
    format.nearest_mul_mul num' den' hden]

/-- Less than half a unit is rounded to zero. -/
theorem nearest_of_lt (format : FloatFormat) {num den : Nat} (h : 2 * num < den) :
    format.nearest num den = 0 := by
  have hquotient : num / den = 0 := Nat.div_eq_of_lt (by omega)
  unfold nearest excess
  dsimp only
  rw [hquotient, Nat.log2_zero, Nat.zero_sub, Nat.pow_eq, pow_zero, Nat.mul_one,
    roundHalfEven_of_lt h, Nat.zero_mul, Nat.zero_min]

/-- A quotient whose binary logarithm exceeds all exponents is rounded to infinity. -/
theorem nearest_of_le (format : FloatFormat) {num den : Nat} (hden : 0 < den)
    (h : 2 ^ (format.fractionBits + 2 ^ format.exponentBits) * den ≤ num) :
    format.nearest num den = format.infinity := by
  have hquotient : 2 ^ (format.fractionBits + 2 ^ format.exponentBits) ≤ num / den :=
    (Nat.le_div_iff_mul_le hden).mpr h
  have hpos : num / den ≠ 0 := by
    have hpower := Nat.two_pow_pos (format.fractionBits + 2 ^ format.exponentBits)
    omega
  have hlog := (Nat.le_log2 hpos).mpr hquotient
  have hexcess : 2 ^ format.exponentBits - 1 ≤ format.excess (num / den) := by
    rw [excess]
    omega
  have hlarge : format.infinity ≤ format.excess (num / den) * format.fractionBound :=
    Nat.mul_le_mul_right _ hexcess
  unfold nearest
  dsimp only
  exact Nat.min_eq_right (Nat.le_add_left_of_le hlarge)

/-- The value of a quotient has at most so many bits more than the format as are in excess. -/
theorem lt_two_pow_excess (format : FloatFormat) (quotient : Nat) :
    quotient < 2 * format.fractionBound * 2 ^ format.excess quotient := by
  have hlog : quotient.log2 ≤ format.fractionBits + format.excess quotient := by
    rw [excess]
    omega
  calc quotient < 2 ^ (quotient.log2 + 1) := Nat.lt_log2_self
    _ ≤ 2 ^ (format.fractionBits + format.excess quotient + 1) :=
      Nat.pow_le_pow_right (by decide) (by omega)
    _ = 2 * format.fractionBound * 2 ^ format.excess quotient := by
      rw [fractionBound_eq]
      ring

theorem excess_le (format : FloatFormat) {quotient k : Nat}
    (h : quotient < 2 * format.fractionBound * 2 ^ k) : format.excess quotient ≤ k := by
  rw [excess]
  by_cases hzero : quotient = 0
  · rw [hzero, Nat.log2_zero, Nat.zero_sub]
    exact Nat.zero_le k
  · have hpower : 2 * format.fractionBound * 2 ^ k = 2 ^ (format.fractionBits + k + 1) := by
      rw [fractionBound_eq]
      ring
    have hlog := (Nat.log2_lt hzero).mpr (hpower ▸ h)
    omega

/-- Rounding does not go beyond a magnitude whose value is not exceeded. -/
theorem nearest_le (format : FloatFormat) {v m : Nat} (h : v ≤ format.units m) :
    format.nearest v 1 ≤ m := by
  have hpos := format.fractionBound_pos
  unfold nearest
  dsimp only
  rw [Nat.div_one, Nat.one_mul, Nat.pow_eq]
  refine (Nat.min_le_left _ _).trans ?_
  rcases format.magnitude_cases m with hlow | ⟨s, k, hle, hlt, rfl⟩
  · rw [format.units_of_lt (by omega)] at h
    have hexcess : format.excess v = 0 :=
      Nat.le_zero.mp (format.excess_le (by rw [pow_zero, Nat.mul_one]; omega))
    rw [hexcess, pow_zero, Nat.zero_mul, Nat.add_zero]
    exact roundHalfEven_le (by rwa [Nat.mul_one])
  · rw [format.units_of_significand hle hlt] at h
    have hexcess : format.excess v ≤ k :=
      format.excess_le (h.trans_lt (Nat.mul_lt_mul_of_pos_right hlt (by positivity)))
    rcases Nat.eq_or_lt_of_le hexcess with heq | hsmall
    · rw [heq]
      exact Nat.add_le_add_right (roundHalfEven_le h) _
    · -- A smaller exponent leaves room for a significand that is rounded up to the next power.
      have hround : roundHalfEven v (2 ^ format.excess v) ≤ 2 * format.fractionBound :=
        roundHalfEven_le (Nat.le_of_lt (format.lt_two_pow_excess v))
      have hmul : (format.excess v + 1) * format.fractionBound ≤ k * format.fractionBound :=
        Nat.mul_le_mul_right _ hsmall
      rw [Nat.succ_mul] at hmul
      omega

/-- A significand that fits the format, shifted to the left, is the number of units of a
magnitude. The bound on the magnitude shows whether it is finite. -/
theorem exists_units_eq (format : FloatFormat) (k : Nat) :
    ∀ s, s < 2 * format.fractionBound →
      ∃ m, format.units m = s * 2 ^ k ∧ m ≤ s + k * format.fractionBound := by
  induction k with
  | zero =>
    intro s hs
    exact ⟨s, by rw [format.units_of_lt hs, pow_zero, Nat.mul_one], by omega⟩
  | succ k ih =>
    intro s hs
    by_cases hlow : s < format.fractionBound
    · obtain ⟨m, hunits, hm⟩ := ih (2 * s) (by omega)
      refine ⟨m, by rw [hunits, pow_succ]; ring, ?_⟩
      rw [Nat.succ_mul]
      omega
    · exact ⟨s + (k + 1) * format.fractionBound,
        format.units_of_significand (by omega) hs, le_refl _⟩

end FloatFormat

end ByteRecord
