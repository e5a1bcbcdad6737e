import ByteRecord.Proofs.Scalar.Words
import ByteRecord.Proofs.Success

/-!
# What a slot keeps of a number

Writing the number that the bytes of a slot stand for gives the bytes back, and reading what was
written for a number that the slot may hold gives the number back. Both fail only for a NaN, whose
fraction need not survive the way through the wider format.
-/

namespace ByteRecord

namespace ScalarType

variable {type : ScalarType}

/-- The integer that a word stands for reduces to the word. -/
theorem emod_integerOf (word : Int) :
    type.integerOf word % type.wordBound = word % type.wordBound := by
  unfold integerOf
  split
  · exact Int.bmod_emod
  · exact Int.emod_emod _ _

/-- An integer slot takes what an integer field does. -/
theorem ofJson_eq_toField (h : type.isFloat = false) (n : Number) :
    type.ofJson (.number n) = n.toField.map .signed := by
  cases type
  case float32 => cases h
  case float64 => cases h
  all_goals rfl

/-- What the type decides about a number that is given for a slot: an integer is taken into the
range of 64 bits, a floating-point number is narrowed or kept. -/
theorem ofJson_cases {value : Json} {scalar : Scalar} (h : type.ofJson value = .ok scalar) :
    ∃ n, value = .number n
      ∧ ((type.isFloat = false ∧ ∃ k, n.toField = .ok k ∧ scalar = .signed k)
        ∨ (type = float32 ∧ scalar = .single n.toBinary64.narrow)
        ∨ (type = float64 ∧ scalar = .double n.toBinary64)) := by
  cases value with
  | number n =>
    have hinteger : n.toField.map Scalar.signed = .ok scalar →
        ∃ k, n.toField = .ok k ∧ scalar = .signed k := by
      intro hk
      obtain ⟨k, hfield, hscalar⟩ := map_eq_ok_iff.mp hk
      exact ⟨k, hfield, hscalar.symm⟩
    refine ⟨n, rfl, ?_⟩
    cases type
    case float32 =>
      injection h with h
      exact Or.inr (Or.inl ⟨rfl, h.symm⟩)
    case float64 =>
      injection h with h
      exact Or.inr (Or.inr ⟨rfl, h.symm⟩)
    all_goals exact Or.inl ⟨rfl, hinteger h⟩
  | _ => cases h

/-- The word of a value that is given for a slot is one of its type. -/
theorem toWord_lt {value : Json} {scalar : Scalar} (h : type.ofJson value = .ok scalar) :
    type.toWord scalar < type.wordBound := by
  obtain ⟨n, -, ⟨-, k, -, rfl⟩ | ⟨rfl, rfl⟩ | ⟨rfl, rfl⟩⟩ := ofJson_cases h
  · have hlt := Int.emod_lt_of_pos k.toInt (Int.natCast_pos.mpr type.wordBound_pos)
    rw [← toWord_signed] at hlt
    exact Int.ofNat_lt.mp hlt
  · exact UInt32.toNat_lt _
  · exact UInt64.toNat_lt _

/-- Reading a slot gives what the word that was written for it stands for. -/
theorem ofOctets_toOctets {value : Json} {scalar : Scalar} (h : type.ofJson value = .ok scalar)
    (order : Endian) :
    type.ofOctets order (type.toOctets order scalar) = type.ofWord (type.toWord scalar) := by
  have hlt := toWord_lt h
  rw [wordBound_eq] at hlt
  rw [ofOctets, toOctets, Endian.word_octets]
  exact congrArg type.ofWord (Nat.mod_eq_of_lt hlt)

/-- The bytes of a slot stand for a number that the slot may hold. -/
theorem holds_ofOctets (order : Endian) {content : List UInt8} (h : content.length = type.size) :
    type.Holds (type.ofOctets order content).toNumber := by
  have hinteger : type.isFloat = false →
      ∃ i, (type.ofOctets order content).toNumber.integer? = some i
        ∧ type.least ≤ i ∧ i < type.bound := by
    intro hfloat
    exact ⟨_, integer?_ofWord hfloat (word_lt_wordBound order h), integerOf_mem hfloat _⟩
  cases type
  case float32 => exact ⟨_, rfl⟩
  case float64 => exact ⟨_, rfl⟩
  all_goals exact hinteger rfl

/-- An integer of the type is taken into its slot. -/
theorem ofJson_of_integer (hfloat : type.isFloat = false) {n : Number} {i : Int}
    (hn : n.integer? = some i) (hleast : type.least ≤ i) (hbound : i < type.bound) :
    ∃ k, type.ofJson (.number n) = .ok (.signed k) ∧ k.toInt = i := by
  have hsigned := isSignedWord_of_mem hleast hbound hfloat
  obtain ⟨k, hfield, hk⟩ := n.toField_of_integer hn hsigned.1 hsigned.2
  refine ⟨k, ?_, hk⟩
  rw [ofJson_eq_toField hfloat, hfield]
  rfl

/-- The bytes of a slot are what is written for the number that they stand for, unless it is a
NaN. -/
theorem toOctets_ofOctets (order : Endian) {content : List UInt8}
    (h : content.length = type.size)
    (hnan : (type.ofOctets order content).toNumber.isNaN = false) :
    ∃ scalar, type.ofJson (.number (type.ofOctets order content).toNumber) = .ok scalar
      ∧ type.toOctets order scalar = content := by
  have hlt := word_lt_wordBound order h
  -- It is enough that the scalar has the word that the bytes spell.
  have hwritten : ∀ scalar, type.toWord scalar = order.word content →
      type.toOctets order scalar = content := by
    intro scalar hword
    rw [toOctets, hword, ← h, order.octets_word]
  have hinteger : type.isFloat = false →
      ∃ scalar, type.ofJson (.number (type.ofOctets order content).toNumber) = .ok scalar
        ∧ type.toOctets order scalar = content := by
    intro hfloat
    have hmem := integerOf_mem hfloat (order.word content)
    obtain ⟨k, hk, hint⟩ :=
      ofJson_of_integer hfloat (integer?_ofWord hfloat hlt) hmem.1 hmem.2
    refine ⟨_, hk, hwritten _ ?_⟩
    rw [toWord, hint, emod_integerOf]
    have hself := Nat.mod_eq_of_lt hlt
    omega
  cases type
  case float32 =>
    have hx : Binary32.isNaN ⟨UInt32.ofNat (order.word content)⟩ = false := by
      rw [← Binary32.isNaN_widen]
      exact hnan
    have hnarrow := Binary32.narrow_widen _ hx
    refine ⟨.single ⟨UInt32.ofNat (order.word content)⟩, ?_, hwritten _ ?_⟩
    · exact congrArg (fun x => Except.ok (Scalar.single x)) hnarrow
    · exact (UInt32.toNat_ofNat' ..).trans (Nat.mod_eq_of_lt hlt)
  case float64 =>
    refine ⟨.double ⟨UInt64.ofNat (order.word content)⟩, rfl, hwritten _ ?_⟩
    exact (UInt64.toNat_ofNat' ..).trans (Nat.mod_eq_of_lt hlt)
  all_goals exact hinteger rfl

/-- A slot gives a number that it may hold back, with the signedness of the slot, unless it is a
NaN. -/
theorem ofWord_toWord {n : Number} (h : type.Holds n) (hnan : n.isNaN = false) :
    ∃ scalar, type.ofJson (.number n) = .ok scalar
      ∧ (type.ofWord (type.toWord scalar)).toNumber.Alike n := by
  have hinteger : type.isFloat = false →
      (∃ i, n.integer? = some i ∧ type.least ≤ i ∧ i < type.bound) →
      ∃ scalar, type.ofJson (.number n) = .ok scalar
        ∧ (type.ofWord (type.toWord scalar)).toNumber.Alike n := by
    rintro hfloat ⟨i, hi, hleast, hbound⟩
    obtain ⟨k, hk, hint⟩ := ofJson_of_integer hfloat hi hleast hbound
    refine ⟨_, hk, Or.inr ⟨i, ?_, hi⟩⟩
    rw [integer?_ofWord hfloat (toWord_lt hk), toWord_signed, hint, integerOf_emod,
      integerOf_of_mem hfloat hleast hbound]
  cases type
  case float32 =>
    obtain ⟨x, rfl⟩ := h
    have hx : x.isNaN = false := by
      rw [← Binary32.isNaN_widen]
      exact hnan
    refine ⟨_, rfl, Or.inl ?_⟩
    rw [Number.toBinary64, Binary32.narrow_widen x hx, toWord, ofWord, UInt32.ofNat_toNat]
    rfl
  case float64 =>
    obtain ⟨x, rfl⟩ := h
    refine ⟨_, rfl, Or.inl ?_⟩
    rw [Number.toBinary64, toWord, ofWord, UInt64.ofNat_toNat]
    rfl
  all_goals exact hinteger rfl h

end ScalarType

end ByteRecord
