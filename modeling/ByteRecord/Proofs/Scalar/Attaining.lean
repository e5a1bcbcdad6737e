import ByteRecord.Proofs.Floating.Arithmetic
import ByteRecord.Proofs.Scalar.Comparing

/-!
# References that a type attains

A slot can only match a reference if some number of its type has the value of the reference: an integer
in the range of the type, a floating-point number that is one, or for four bytes a widened one. The two
zeros have the same value, so a zero of either sign is attained. Numbers that are given in another form
become the reference when they are converted, because both have one exact value.
-/

namespace ByteRecord

namespace Binary64

variable {x y : Binary64} {value : ExactValue}

/-- Numbers of the same exact value are the same, or zeros. -/
theorem eq_or_magnitude_eq_zero (hx : x.exactValue? = some value) (hy : y.exactValue? = some value) :
    x = y ∨ x.magnitude = 0 := by
  have hequal : x.equals y = true := equals_iff.mpr ⟨value, hx, hy⟩
  rw [equals, Bool.and_eq_true, beq_iff_eq] at hequal
  have hrank := hequal.2
  rw [rank, rank] at hrank
  by_cases hsign : x.negative = y.negative
  · have hmagnitude : x.magnitude = y.magnitude := by
      rw [hsign] at hrank
      split at hrank <;> omega
    rw [← ofMagnitude_eta x, ← ofMagnitude_eta y, hsign, hmagnitude]
    exact Or.inl rfl
  · have hopposite : y.negative = !x.negative := Bool.eq_not.mpr (Ne.symm hsign)
    rw [hopposite] at hrank
    refine Or.inr ?_
    cases hnegative : x.negative <;>
      simp only [hnegative, Bool.not_true, Bool.not_false, Bool.false_eq_true, if_true,
        if_false] at hrank <;>
      omega

/-- A number that has an exact value is one. -/
theorem isNaN_of_exactValue? (hx : x.exactValue? = some value) : x.isNaN = false := by
  obtain ⟨-, hnan, -⟩ | ⟨-, hnan, -⟩ | ⟨-, hnone⟩ := exactValue?_cases x
  · exact hnan
  · exact hnan
  · rw [hx] at hnone
    cases hnone

/-- Every number but a NaN has an exact value. -/
theorem exists_exactValue? (hx : x.isNaN = false) : ∃ value, x.exactValue? = some value := by
  obtain ⟨-, -, hvalue⟩ | ⟨-, -, hvalue⟩ | ⟨hnan, -⟩ := exactValue?_cases x
  · exact ⟨_, hvalue⟩
  · exact ⟨_, hvalue⟩
  · rw [hx] at hnan
    cases hnan

/-- A finite value in whole units of one is that of an integer. -/
theorem represents_of_exactValue? {i : Int} (hx : x.exactValue? = some (.finite (i * format.one))) :
    x.Represents i := by
  obtain ⟨hlt, -, hvalue⟩ | ⟨-, -, hvalue⟩ | ⟨-, hnone⟩ := exactValue?_cases x
  · have hscaled := ExactValue.finite.inj (Option.some.inj (hx.symm.trans hvalue))
    exact ⟨decide_eq_true hlt, hscaled.symm⟩
  · cases hx.symm.trans hvalue
  · rw [hx] at hnone
    cases hnone

/-- A number with the value of a widened one is a widened one itself. -/
theorem exists_widen_of_exactValue? {z : Binary32} (hx : x.exactValue? = some value)
    (hz : z.widen.exactValue? = some value) : ∃ y : Binary32, y.isNaN = false ∧ x = y.widen := by
  obtain hsame | hzero := eq_or_magnitude_eq_zero hx hz
  · exact ⟨z, z.isNaN_widen.symm.trans (isNaN_of_exactValue? hz), hsame⟩
  · refine ⟨Binary32.ofMagnitude x.negative 0, ?_, ?_⟩
    · cases x.negative <;> decide
    · have hwide : (Binary32.ofMagnitude x.negative 0).widen = ofMagnitude x.negative 0 := by
        cases x.negative <;> decide +kernel
      rw [hwide, ← hzero, ofMagnitude_eta]

end Binary64

/-- Converting a number keeps its value, if some floating-point number has that value. -/
theorem Number.exactValue?_toBinary64 {n : Number} {x : Binary64} {value : ExactValue}
    (hn : n.exactValue? = some value) (hx : x.exactValue? = some value) :
    n.toBinary64.exactValue? = some value := by
  have hinteger : ∀ i, n.integer? = some i → n.toBinary64.exactValue? = some value := by
    intro i hi
    have hvalue := Option.some.inj ((exactValue?_of_integer hi).symm.trans hn)
    rw [← hvalue] at hx ⊢
    rw [toBinary64_of_integer hi]
    by_cases hzero : i = 0
    · rw [hzero]
      decide +kernel
    · rw [← (Binary64.represents_of_exactValue? hx).eq_ofInt hzero, hx]
  cases n with
  | unsigned n => exact hinteger _ rfl
  | signed n => exact hinteger _ rfl
  | real y => exact hn

/-- An integer equals an integer reference only if it is the same. -/
theorem ScalarRef.Equal.eq_of_integer {m : Int64} {n : Number} {i : Int}
    (h : (integer m).Equal n) (hn : n.integer? = some i) : i = m.toInt := by
  obtain ⟨value, hvalue, hm⟩ := h
  have hsame : some (ExactValue.finite (i * Binary64.format.one)) = _ :=
    (Number.exactValue?_of_integer hn).symm.trans (hvalue.trans hm.symm)
  have hunits := ExactValue.finite.inj (Option.some.inj hsame)
  exact Int.eq_of_mul_eq_mul_right Binary64.int_one_ne_zero hunits

/-- The value of the reference is one of the type. -/
inductive ScalarType.Attains : ScalarType → ScalarRef → Prop
  /-- An integer in the range of an integer type. -/
  | integer {type : ScalarType} {n : Int64} (integer : type.isFloat = false)
      (least : type.least ≤ n.toInt) (bound : n.toInt < type.bound) : Attains type (.integer n)
  /-- Any floating-point number but a NaN in eight bytes. -/
  | float64 {x : Binary64} (number : x.isNaN = false) : Attains .float64 (.real x)
  /-- In four bytes only a widened one. -/
  | float32 {x : Binary32} (number : x.isNaN = false) : Attains .float32 (.real x.widen)

/-- A type attains a reference of its kind exactly if one of its numbers has the same exact value. -/
theorem ScalarType.attains_iff {type : ScalarType} {ref : ScalarRef}
    (typed : ref.isReal = type.isFloat) :
    type.Attains ref ↔ ∃ n, type.Holds n ∧ ref.Equal n := by
  constructor
  · intro h
    cases h with
    | @integer type n integer least bound =>
      refine ⟨.signed n, ?_, _, rfl, rfl⟩
      cases type
      case float32 | float64 => cases integer
      all_goals exact ⟨n.toInt, rfl, least, bound⟩
    | @float64 x number =>
      obtain ⟨value, hvalue⟩ := Binary64.exists_exactValue? number
      exact ⟨.real x, ⟨x, rfl⟩, value, hvalue, hvalue⟩
    | @float32 x number =>
      obtain ⟨value, hvalue⟩ := Binary64.exists_exactValue? (x.isNaN_widen.trans number)
      exact ⟨.real x.widen, ⟨x, rfl⟩, value, hvalue, hvalue⟩
  · rintro ⟨n, hrange, hequal⟩
    cases ref with
    | integer m =>
      have hinteger : type.isFloat = false := typed.symm
      obtain ⟨i, hi, hleast, hbound⟩ := hrange.exists_integer? hinteger
      obtain rfl := hequal.eq_of_integer hi
      exact .integer hinteger hleast hbound
    | real x =>
      obtain ⟨value, hn, href⟩ := hequal
      cases type
      case float64 => exact .float64 (Binary64.isNaN_of_exactValue? href)
      case float32 =>
        obtain ⟨z, rfl⟩ := hrange
        obtain ⟨y, hy, rfl⟩ := Binary64.exists_widen_of_exactValue? href hn
        exact .float32 hy
      all_goals cases typed

end ByteRecord
