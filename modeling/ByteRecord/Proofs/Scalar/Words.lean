import ByteRecord.Encode.Plan
import ByteRecord.Proofs.Floating.Widening

/-!
# Words and numbers

The number that a word of a scalar type stands for lies in the range of the type, and writing it
gives the word back. Conversely a number in the range of a type is kept by its word; a number
outside of the range is reduced.
-/

namespace ByteRecord

/-- The integer that a JSON number is, if it is given as one. -/
def Number.integer? : Number → Option Int
  | .unsigned n => some n.toNat
  | .signed n => some n.toInt
  | .real _ => none

/-- Whether the number is a floating-point number that is no number. -/
def Number.isNaN : Number → Bool
  | .real x => x.isNaN
  | _ => false

/-- Two numbers are alike if they are the same, or the same integer kept with another
signedness. -/
def Number.Alike (m n : Number) : Prop := m = n ∨ ∃ i, m.integer? = some i ∧ n.integer? = some i

theorem Number.Alike.refl (n : Number) : n.Alike n := Or.inl rfl

theorem Number.toBinary64_of_integer {n : Number} {i : Int} (h : n.integer? = some i) :
    n.toBinary64 = Binary64.ofInt i := by
  cases n with
  | unsigned n =>
    have hi : (n.toNat : Int) = i := Option.some.inj h
    rw [← hi]
    simp only [Number.toBinary64, Binary64.ofNat]
  | signed n =>
    have hi : n.toInt = i := Option.some.inj h
    rw [← hi, Number.toBinary64]
  | real x => cases h

/-- Alike numbers have the same value as floating-point numbers. -/
theorem Number.Alike.toBinary64_eq {m n : Number} (h : m.Alike n) :
    m.toBinary64 = n.toBinary64 := by
  rcases h with rfl | ⟨i, hm, hn⟩
  · rfl
  · rw [Number.toBinary64_of_integer hm, Number.toBinary64_of_integer hn]

/-- An integer is compared as the signed word it reduces to. -/
theorem Number.toInt64?_of_integer {n : Number} {i : Int} (h : n.integer? = some i) :
    n.toInt64? = some (Int64.ofInt i) := by
  cases n with
  | unsigned n =>
    have hi : (n.toNat : Int) = i := Option.some.inj h
    rw [toInt64?, ← hi, Int64.ofInt_eq_ofNat, ← UInt64.toInt64_ofNat', UInt64.ofNat_toNat]
  | signed n =>
    have hi : n.toInt = i := Option.some.inj h
    rw [toInt64?, ← hi, Int64.ofInt_toInt]
  | real x => cases h

/-- An integer that is not negative is the same word without a sign. -/
theorem Number.toNat_toUInt64 {n : Int64} (h : ¬ n < 0) : (n.toUInt64.toNat : Int) = n.toInt := by
  have hsign : 0 ≤ n.toInt := by
    rw [Int64.lt_iff_toInt_lt, Int64.toInt_zero] at h
    exact Int.not_lt.mp h
  have hword : n.toUInt64.toNat = n.toBitVec.toNat := rfl
  have hvalue : n.toInt = n.toBitVec.toInt := rfl
  have hbound := n.toBitVec.isLt
  rw [hvalue, BitVec.toInt_eq_toNat_cond] at hsign ⊢
  split at hsign <;> omega

/-- An integer is taken as the signed word it reduces to. -/
theorem Number.toField_eq_of_integer {n : Number} {i : Int} (h : n.integer? = some i) :
    n.toField = .ok (Int64.ofInt i) := by
  have hword := toInt64?_of_integer h
  cases n with
  | real x => cases h
  | _ => exact congrArg Except.ok (Option.some.inj hword)

/-- An integer of 64 bits is taken as itself. -/
theorem Number.toField_of_integer {n : Number} {i : Int} (h : n.integer? = some i)
    (hleast : -9223372036854775808 ≤ i) (hbound : i < 9223372036854775808) :
    ∃ k, n.toField = .ok k ∧ k.toInt = i :=
  ⟨Int64.ofInt i, toField_eq_of_integer h, Int64.toInt_ofInt_of_le hleast hbound⟩

namespace Endian

/-- So many bytes spell no greater word. -/
theorem littleWord_lt (bytes : List UInt8) : littleWord bytes < 256 ^ bytes.length := by
  induction bytes with
  | nil => exact Nat.one_pos
  | cons byte rest ih =>
    have hbyte := byte.toNat_lt
    rw [littleWord, List.length_cons, pow_succ]
    omega

theorem word_lt (order : Endian) (bytes : List UInt8) :
    order.word bytes < 256 ^ bytes.length := by
  have h := littleWord_lt (order.arrange bytes)
  rwa [length_arrange] at h

end Endian

namespace ScalarType

variable {type : ScalarType}

/-- The least integer of the type. -/
def least (type : ScalarType) : Int :=
  if type.isSigned then -((type.wordBound / 2 : Nat) : Int) else 0

/-- The integers of the type are below this bound. -/
def bound (type : ScalarType) : Int :=
  if type.isSigned then ((type.wordBound / 2 : Nat) : Int) else type.wordBound

/-- The numbers that a slot of the type may hold: integers in the range of the type, widened 32-bit
numbers or any 64-bit numbers. -/
def Holds (type : ScalarType) (n : Number) : Prop :=
  match type with
  | float32 => ∃ x : Binary32, n = .real x.widen
  | float64 => ∃ x : Binary64, n = .real x
  | _ => ∃ i, n.integer? = some i ∧ type.least ≤ i ∧ i < type.bound

/-- The words of the type are those that its bytes spell. -/
theorem wordBound_eq (type : ScalarType) : type.wordBound = 256 ^ type.size := by
  cases type <;> decide

theorem wordBound_pos (type : ScalarType) : 0 < type.wordBound := by cases type <;> decide

/-- The word of an integer is its remainder. -/
theorem toWord_signed (k : Int64) :
    (type.toWord (.signed k) : Int) = k.toInt % (type.wordBound : Int) :=
  Int.toNat_of_nonneg (Int.emod_nonneg _ (Int.natCast_ne_zero.mpr type.wordBound_pos.ne'))

theorem word_lt_wordBound (order : Endian) {bytes : List UInt8} (h : bytes.length = type.size) :
    order.word bytes < type.wordBound := by
  rw [wordBound_eq, ← h]
  exact order.word_lt bytes

/-- The integer that a word of an integer type stands for. -/
def integerOf (type : ScalarType) (word : Int) : Int :=
  if type.isSigned then Int.bmod word type.wordBound else word % type.wordBound

/-- A word of an integer type stands for an integer of its range. -/
theorem integerOf_mem (h : type.isFloat = false) (word : Int) :
    type.least ≤ type.integerOf word ∧ type.integerOf word < type.bound := by
  cases type <;>
    simp only [isFloat, Bool.true_eq_false] at h <;>
    simp only [least, bound, integerOf, isSigned, wordBound, size, Nat.pow_eq, if_true,
      Bool.false_eq_true, if_false, Int.bmod_eq_emod]
  any_goals omega
  all_goals split <;> omega

/-- An integer of the range is what its own word stands for. -/
theorem integerOf_of_mem (h : type.isFloat = false) {i : Int} (hleast : type.least ≤ i)
    (hbound : i < type.bound) : type.integerOf i = i := by
  cases type <;>
    simp only [isFloat, Bool.true_eq_false] at h <;>
    simp only [least, bound, integerOf, isSigned, wordBound, size, Nat.pow_eq, if_true,
      Bool.false_eq_true, if_false, Int.bmod_eq_emod] at hleast hbound ⊢
  any_goals omega
  all_goals split <;> omega

/-- Reducing an integer to a word does not change what the word stands for. -/
theorem integerOf_emod (i : Int) : type.integerOf (i % type.wordBound) = type.integerOf i := by
  unfold integerOf
  rw [Int.emod_bmod, Int.emod_emod]

/-- The integers of a type are 64-bit ones. -/
theorem isSignedWord_of_mem {i : Int} (hleast : type.least ≤ i) (hbound : i < type.bound)
    (h : type.isFloat = false) : -9223372036854775808 ≤ i ∧ i < 9223372036854775808 := by
  cases type <;>
    simp only [isFloat, Bool.true_eq_false] at h <;>
    simp only [least, bound, isSigned, wordBound, size, Nat.pow_eq, if_true,
      Bool.false_eq_true, if_false] at hleast hbound <;>
    omega

/-- The number that a word of an integer type stands for. -/
theorem integer?_ofWord (h : type.isFloat = false) {word : Nat} (hword : word < type.wordBound) :
    (type.ofWord word).toNumber.integer? = some (type.integerOf word) := by
  have hmem := integerOf_mem h word
  have hsigned := isSignedWord_of_mem hmem.1 hmem.2 h
  cases type <;>
    simp only [isFloat, Bool.true_eq_false] at h <;>
    simp only [integerOf, isSigned, Bool.false_eq_true, if_true, if_false, wordBound, size,
      Nat.pow_eq] at hsigned hword ⊢ <;>
    refine congrArg some ?_
  case int8 | int16 | int32 => exact Int64.toInt_ofInt_of_le hsigned.1 hsigned.2
  case uint8 | uint16 | uint32 =>
    rw [UInt64.toNat_ofNat']
    omega

end ScalarType

end ByteRecord
