import ByteRecord.Proofs.Scalar.Words
import ByteRecord.Proofs.Tag.Rereading

/-!
# Numbers that equal a reference

A number has an exact value unless it is no number, and two are equal exactly if they have the same
one: both zeros are, and a NaN equals nothing. References are compared as words or as floating-point
numbers, whichever they are given as. For values and references of the same kind this comes to the
equality of exact values.
-/

namespace ByteRecord

/-- The exact value of a number. -/
inductive ExactValue where
  /-- A finite number, in units of the least positive floating-point number. -/
  | finite (units : Int)
  /-- An infinity of the given sign. -/
  | infinite (negative : Bool)
  deriving DecidableEq

/-- The exact value of a floating-point number, unless it is no number. -/
def Binary64.exactValue? (x : Binary64) : Option ExactValue :=
  if x.isFinite then some (.finite x.scaled)
  else if x.isNaN then none
  else some (.infinite x.negative)

/-- The exact value of a number of a record. -/
def Number.exactValue? : Number → Option ExactValue
  | unsigned n => some (.finite (n.toNat * Binary64.format.one))
  | signed n => some (.finite (n.toInt * Binary64.format.one))
  | real x => x.exactValue?

namespace ScalarRef

/-- The exact value of a reference. -/
def exactValue? : ScalarRef → Option ExactValue
  | integer n => some (.finite (n.toInt * Binary64.format.one))
  | real x => x.exactValue?

/-- The number has the exact value of the reference. -/
def Equal (ref : ScalarRef) (n : Number) : Prop :=
  ∃ value, n.exactValue? = some value ∧ ref.exactValue? = some value

end ScalarRef

namespace FloatFormat

/-- Finite magnitudes of the same value are the same. -/
theorem units_inj (format : FloatFormat) {m n : Nat} (hm : m < format.infinity)
    (hn : n < format.infinity) : format.units m = format.units n ↔ m = n := by
  constructor
  · intro h
    rw [← format.nearest_units Nat.one_pos hm, h, format.nearest_units Nat.one_pos hn]
  · rintro rfl
    rfl

/-- Only zero has no value. -/
theorem units_eq_zero_iff (format : FloatFormat) {m : Nat} (hm : m < format.infinity) :
    format.units m = 0 ↔ m = 0 := by
  have hzero : format.units 0 = 0 :=
    format.units_of_lt (Nat.mul_pos Nat.two_pos format.fractionBound_pos)
  rw [← format.units_inj hm (Nat.zero_lt_of_lt hm), hzero]

end FloatFormat

namespace Binary64

variable {x y : Binary64}

/-- A number is finite, infinite or no number. -/
theorem exactValue?_cases (x : Binary64) :
    (x.magnitude < format.infinity ∧ x.isNaN = false ∧ x.exactValue? = some (.finite x.scaled))
      ∨ (x.magnitude = format.infinity ∧ x.isNaN = false
        ∧ x.exactValue? = some (.infinite x.negative))
      ∨ (x.isNaN = true ∧ x.exactValue? = none) := by
  rcases Nat.lt_trichotomy x.magnitude format.infinity with hlt | heq | hgt
  · have hnan : x.isNaN = false := decide_eq_false (Nat.lt_asymm hlt)
    exact Or.inl ⟨hlt, hnan, if_pos (decide_eq_true hlt)⟩
  · have hnan : x.isNaN = false := decide_eq_false (by omega)
    have hfinite : ¬ x.isFinite = true := by rw [isFinite, decide_eq_true_eq]; omega
    refine Or.inr (Or.inl ⟨heq, hnan, ?_⟩)
    rw [exactValue?, if_neg hfinite, if_neg (by rw [hnan]; exact Bool.false_ne_true)]
  · have hnan : x.isNaN = true := decide_eq_true hgt
    have hfinite : ¬ x.isFinite = true := by rw [isFinite, decide_eq_true_eq]; omega
    refine Or.inr (Or.inr ⟨hnan, ?_⟩)
    rw [exactValue?, if_neg hfinite, if_pos hnan]

/-- Finite numbers have the same rank exactly if they have the same value. -/
theorem rank_eq_iff_scaled_eq (hx : x.magnitude < format.infinity)
    (hy : y.magnitude < format.infinity) : x.rank = y.rank ↔ x.scaled = y.scaled := by
  have hinj := format.units_inj hx hy
  have hxzero := format.units_eq_zero_iff hx
  have hyzero := format.units_eq_zero_iff hy
  unfold rank scaled units
  cases x.negative <;> cases y.negative <;> simp only [if_true, Bool.false_eq_true, if_false] <;>
    omega

/-- Numbers are equal exactly if they have the same exact value. -/
theorem equals_iff :
    x.equals y = true ↔ ∃ value, x.exactValue? = some value ∧ y.exactValue? = some value := by
  have hequals : x.equals y = true ↔ x.isNaN = false ∧ y.isNaN = false ∧ x.rank = y.rank := by
    simp only [equals, Bool.and_eq_true, Bool.not_eq_true', beq_iff_eq, and_assoc]
  rw [hequals]
  rcases exactValue?_cases x with ⟨hx, hxnan, hxvalue⟩ | ⟨hx, hxnan, hxvalue⟩ | ⟨hxnan, hxvalue⟩ <;>
  rcases exactValue?_cases y with ⟨hy, hynan, hyvalue⟩ | ⟨hy, hynan, hyvalue⟩ | ⟨hynan, hyvalue⟩
  case inl.inl =>
    simp [hxnan, hynan, hxvalue, hyvalue, rank_eq_iff_scaled_eq hx hy, eq_comm]
  case inr.inl.inr.inl =>
    have hpos : 0 < format.infinity := by decide
    have hrank : x.rank = y.rank ↔ x.negative = y.negative := by
      unfold rank
      rw [hx, hy]
      cases x.negative <;> cases y.negative <;>
        simp only [if_true, Bool.false_eq_true, if_false, reduceCtorEq, iff_false] <;>
        omega
    simp [hxnan, hynan, hxvalue, hyvalue, hrank, eq_comm]
  case inl.inr.inl | inr.inl.inl =>
    have hrank : x.rank ≠ y.rank := by
      unfold rank
      cases x.negative <;> cases y.negative <;>
        simp only [if_true, Bool.false_eq_true, if_false] <;>
        omega
    simp [hxnan, hynan, hxvalue, hyvalue, hrank]
  all_goals simp [hxnan, hynan, hxvalue, hyvalue]

end Binary64

/-- The exact value of an integer. -/
theorem Number.exactValue?_of_integer {n : Number} {i : Int} (h : n.integer? = some i) :
    n.exactValue? = some (.finite (i * Binary64.format.one)) := by
  cases n with
  | unsigned n => rw [exactValue?, Option.some.inj h]
  | signed n => rw [exactValue?, Option.some.inj h]
  | real x => cases h

namespace ScalarType

variable {type : ScalarType} {n : Number}

/-- A number of an integer type is an integer of its range. -/
theorem Holds.exists_integer? (range : type.Holds n) (h : type.isFloat = false) :
    ∃ i, n.integer? = some i ∧ type.least ≤ i ∧ i < type.bound := by
  cases type with
  | float32 | float64 => cases h
  | _ => exact range

/-- A number of another type is a floating-point number. -/
theorem Holds.exists_real (range : type.Holds n) (h : type.isFloat = true) :
    ∃ x, n = .real x := by
  cases type with
  | float32 =>
    obtain ⟨x, rfl⟩ := range
    exact ⟨x.widen, rfl⟩
  | float64 => exact range
  | _ => cases h

end ScalarType

/-- A number of a type equals a reference of its kind exactly if both have the same exact value. -/
theorem ScalarRef.equals_iff {type : ScalarType} {ref : ScalarRef} {n : Number}
    (typed : ref.isReal = type.isFloat) (range : type.Holds n) :
    ref.equals n = true ↔ ref.Equal n := by
  cases ref with
  | integer m =>
    have hfloat : type.isFloat = false := typed.symm
    obtain ⟨i, hi, hleast, hbound⟩ := range.exists_integer? hfloat
    obtain ⟨hlow, hhigh⟩ := ScalarType.isSignedWord_of_mem hleast hbound hfloat
    have hvalue : (Int64.ofInt i).toInt = i := Int64.toInt_ofInt_of_le hlow hhigh
    have hone : (Binary64.format.one : Int) ≠ 0 :=
      Int.natCast_ne_zero.mpr Binary64.format.one_pos.ne'
    have hequals : (integer m).equals n = (Int64.ofInt i == m) := by
      unfold equals
      rw [Number.toInt64?_of_integer hi]
    rw [hequals, beq_iff_eq, ← Int64.toInt_inj, hvalue]
    simp only [Equal, Number.exactValue?_of_integer hi, exactValue?, Option.some.injEq,
      exists_eq_left', ExactValue.finite.injEq]
    rw [Int.mul_eq_mul_right_iff hone, eq_comm]
  | real y =>
    obtain ⟨x, rfl⟩ := range.exists_real typed.symm
    exact Binary64.equals_iff

end ByteRecord
