import ByteRecord.Proofs.RoundTrip.Encoded
import ByteRecord.Proofs.RoundTrip.Reduced
import ByteRecord.Proofs.Scalar.Attaining
import ByteRecord.Proofs.Tag.Grammar

/-!
# References that can match

A tag that demands a reference matches some bytes exactly if a value that the slot may hold has the value
of the reference. A reference outside of the range of its type, a number that four bytes cannot hold and
a text that is too long or too short are read without an error, but every decoding fails on them. All
others match what is written for them, in whichever form the number is given.
-/

namespace ByteRecord

variable {n : Number} {ref : ScalarRef}

/-- A number with the value of an integer is taken for it by an integer slot. -/
theorem ScalarRef.Equal.truncatesTo {m : Int64} (h : (integer m).Equal n) :
    (Json.number n).TruncatesTo m.toInt := by
  cases n with
  | unsigned k =>
    rw [← h.eq_of_integer rfl]
    exact .integer rfl
  | signed k =>
    rw [← h.eq_of_integer rfl]
    exact .integer rfl
  | real x =>
    obtain ⟨value, hx, hm⟩ := h
    rw [← Option.some.inj hm] at hx
    have represents : x.Represents m.toInt := Binary64.represents_of_exactValue? hx
    have hone : (0 : Int) ≤ Binary64.format.one := Int.natCast_nonneg _
    have hleast := m.le_toInt
    have hbound := m.toInt_lt
    rw [← represents.tdiv_eq]
    refine .real represents.finite ?_ ?_
    · rw [represents.scaled_eq, ← Int.neg_mul]
      exact Int.mul_le_mul_of_nonneg_right hleast hone
    · rw [represents.scaled_eq]
      exact Int.mul_lt_mul_of_pos_right hbound (Int.natCast_pos.mpr Binary64.format.one_pos)

/-- What is written for the value of a reference that the type attains has this value. -/
theorem ScalarType.Attains.exists_ofJson {type : ScalarType} (h : type.Attains ref)
    (equal : ref.Equal n) (order : Endian) :
    ∃ scalar, type.ofJson (.number n) = .ok scalar
      ∧ ref.Equal (type.ofOctets order (type.toOctets order scalar)).toNumber := by
  cases h with
  | integer integer least bound =>
    have hinteger := integer?_ofOctets_toOctets integer equal.truncatesTo order
    rw [integerOf_of_mem integer least bound] at hinteger
    exact ⟨_, ofJson_of_truncatesTo integer equal.truncatesTo, _,
      Number.exactValue?_of_integer hinteger, rfl⟩
  | float64 number =>
    obtain ⟨value, hn, hvalue⟩ := equal
    have htaken : ScalarType.float64.ofJson (.number n) = .ok (.double n.toBinary64) := rfl
    have hread : ScalarType.float64.ofOctets order (ScalarType.float64.toOctets order
        (.double n.toBinary64)) = .double n.toBinary64 := by
      rw [ofOctets_toOctets htaken, toWord, ofWord, UInt64.ofNat_toNat]
    refine ⟨_, htaken, value, ?_, hvalue⟩
    rw [hread]
    exact Number.exactValue?_toBinary64 hn hvalue
  | float32 number =>
    obtain ⟨value, hn, hvalue⟩ := equal
    have hexact := Number.exactValue?_toBinary64 hn hvalue
    obtain ⟨y, hy, hwide⟩ := Binary64.exists_widen_of_exactValue? hexact hvalue
    have htaken : ScalarType.float32.ofJson (.number n) = .ok (.single n.toBinary64.narrow) := rfl
    rw [hwide, y.narrow_widen hy] at htaken
    have hread : ScalarType.float32.ofOctets order (ScalarType.float32.toOctets order (.single y))
        = .single y := by
      rw [ofOctets_toOctets htaken, toWord, ofWord, UInt32.ofNat_toNat]
    refine ⟨_, htaken, value, ?_, hvalue⟩
    rw [hread, Scalar.toNumber, ← hwide]
    exact hexact

namespace Tag

/-- The least width of the slot. -/
def paddedTo : Tag → UInt64
  | scalar tag => tag.paddedTo
  | string tag | cstring tag => tag.paddedTo

/-- The tag demands that its value equals a reference. -/
def Positive : Tag → Prop
  | scalar tag => ∃ ref, tag.constraint = some ⟨ref, false⟩
  | string tag | cstring tag => ∃ s, tag.constraint = some ⟨s, false⟩

/-- The slot may hold the reference that the tag demands. -/
inductive Attainable : Tag → Prop
  /-- A number that the type attains. -/
  | scalar {tag : ScalarTag} {ref : ScalarRef} (demand : tag.constraint = some ⟨ref, false⟩)
      (attains : tag.type.Attains ref) : Attainable (.scalar tag)
  /-- A text that fills the slot. -/
  | string {tag : TextTag} {s : String} (demand : tag.constraint = some ⟨s, false⟩)
      (chars : IsFieldText s) (length : s.length = tag.paddedTo.toNat) : Attainable (.string tag)
  /-- A text without a zero byte that fits the slot if the slot has a width. -/
  | cstring {tag : TextTag} {s : String} (demand : tag.constraint = some ⟨s, false⟩)
      (chars : IsFieldText s) (free : '\x00' ∉ s.toList)
      (length : tag.paddedTo ≠ 0 → s.length ≤ tag.paddedTo.toNat) : Attainable (.cstring tag)

/-- The value is the reference that the tag demands, a number in any form. -/
inductive Demands : Tag → Json → Prop
  /-- A number of the same exact value. -/
  | scalar {tag : ScalarTag} {ref : ScalarRef} {n : Number}
      (demand : tag.constraint = some ⟨ref, false⟩) (equal : ref.Equal n) :
      Demands (.scalar tag) (.number n)
  /-- The text. -/
  | string {tag : TextTag} {s : String} (demand : tag.constraint = some ⟨s, false⟩) :
      Demands (.string tag) (.string s)
  /-- The text. -/
  | cstring {tag : TextTag} {s : String} (demand : tag.constraint = some ⟨s, false⟩) :
      Demands (.cstring tag) (.string s)

variable {tag : Tag} {value : Json}

/-- If a value that may stand in the slot meets the demand, the demand can be met. -/
theorem Holds.attainable (typed : tag.WellTyped) (positive : tag.Positive) (h : tag.Holds value) :
    tag.Attainable ∧ tag.Demands value := by
  cases h with
  | scalar range demand =>
    obtain ⟨ref, href⟩ := positive
    have hequal := demand _ href
    exact ⟨.scalar href ((ScalarType.attains_iff (typed.isReal_eq href)).mpr ⟨_, range, hequal⟩),
      .scalar href hequal⟩
  | string chars length demand =>
    obtain ⟨s, hs⟩ := positive
    obtain rfl := demand _ hs
    exact ⟨.string hs chars length, .string hs⟩
  | cstring chars free length demand =>
    obtain ⟨s, hs⟩ := positive
    obtain rfl := demand _ hs
    exact ⟨.cstring hs chars free length, .cstring hs⟩

/-- There is a value to meet every demand that can be met. -/
theorem Attainable.exists_demands (typed : tag.WellTyped) (h : tag.Attainable) :
    ∃ value, tag.Demands value := by
  cases h with
  | scalar demand attains =>
    obtain ⟨n, -, hequal⟩ := (ScalarType.attains_iff (typed.isReal_eq demand)).mp attains
    exact ⟨_, .scalar demand hequal⟩
  | string demand => exact ⟨_, .string demand⟩
  | cstring demand => exact ⟨_, .cstring demand⟩

/-- A text that may stand in its slot is written, and the bytes spell it. -/
theorem Holds.spells_octets {s : String} (typed : tag.WellTyped) (h : tag.Holds (.string s)) :
    Slot.Writable ⟨tag, .string s⟩ ∧ tag.Spells (Slot.octets ⟨tag, .string s⟩) (.string s) := by
  have hkept : Slot.kept ⟨tag, .string s⟩ = .string s := by
    have halike := h.kept_alike rfl
    generalize Slot.kept ⟨tag, .string s⟩ = kept at halike
    cases halike
    rfl
  have hends : Slot.Ends ⟨tag, .string s⟩ := ends h
  have hspells := h.writable.written.spells typed hends
  rw [← Slot.kept, hkept] at hspells
  exact ⟨h.writable, hspells h⟩

/-- What is written for the reference spells it, if the slot may hold it. -/
theorem Attainable.spells_octets (typed : tag.WellTyped) (h : tag.Attainable)
    (demands : tag.Demands value) :
    Slot.Writable ⟨tag, value⟩
      ∧ ∃ decoded, tag.Spells (Slot.octets ⟨tag, value⟩) decoded ∧ tag.Demands decoded := by
  cases demands with
  | scalar demand equal =>
    rename_i tag ref n
    cases h with
    | scalar other attains =>
      obtain rfl := (Constraint.mk.inj (Option.some.inj (other.symm.trans demand))).1
      obtain ⟨scalar, hscalar, hequal⟩ := attains.exists_ofJson equal tag.order
      have hwidth : (tag.type.toOctets tag.order scalar).length = tag.type.size :=
        Endian.length_octets ..
      have hadmits : tag.admits (tag.type.ofOctets tag.order
          (tag.type.toOctets tag.order scalar)).toNumber = true := by
        have hrange := ScalarType.holds_ofOctets tag.order hwidth
        refine (ScalarTag.admits_iff typed hrange).mpr fun another hanother => ?_
        obtain rfl := Option.some.inj (demand.symm.trans hanother)
        exact hequal
      refine ⟨⟨_, congrArg (Except.map _) hscalar⟩, _, ?_, .scalar demand hequal⟩
      rw [Slot.octets_scalar hscalar]
      exact .scalar hwidth (List.length_replicate ..) hadmits
  | string demand =>
    cases h with
    | string other chars length =>
      obtain rfl := (Constraint.mk.inj (Option.some.inj (other.symm.trans demand))).1
      have hholds := Holds.string chars length fun another hanother => by
        obtain rfl := Option.some.inj (demand.symm.trans hanother)
        rfl
      obtain ⟨hwritable, hspells⟩ := hholds.spells_octets typed
      exact ⟨hwritable, _, hspells, .string demand⟩
  | cstring demand =>
    cases h with
    | cstring other chars free length =>
      obtain rfl := (Constraint.mk.inj (Option.some.inj (other.symm.trans demand))).1
      have hholds := Holds.cstring chars free length fun another hanother => by
        obtain rfl := Option.some.inj (demand.symm.trans hanother)
        rfl
      obtain ⟨hwritable, hspells⟩ := hholds.spells_octets typed
      exact ⟨hwritable, _, hspells, .cstring demand⟩

/-- The text of a reference is part of the text that it was read from. -/
theorem length_reference_le {text : String} {tag : TextTag} {demand : Constraint String}
    (h : parse text = .ok (.cstring tag)) (hdemand : tag.constraint = some demand) :
    demand.value.length ≤ text.length := by
  have hdenotes := parse_eq_ok_iff_denotes.mp h
  rw [← String.length_toList, ← String.length_toList]
  generalize text.toList = chars at hdenotes
  cases hdenotes with
  | cstring padding reference =>
    cases reference with
    | none => cases hdemand
    | equal written | differ written =>
      rw [← Option.some.inj hdemand, written]
      simp only [List.length_append, List.length_cons]
      omega

/-- A slot for the reference of a tag that was read takes less than two to the 63 bytes. -/
theorem Demands.size_le {text : String} (h : parse text = .ok tag) (demands : tag.Demands value)
    (padded : tag.paddedTo.toNat < 2 ^ 53) (short : text.length < 2 ^ 63) :
    Slot.size ⟨tag, value⟩ ≤ signedBound := by
  rw [signedBound]
  cases demands with
  | scalar demand equal =>
    rename_i tag ref n
    have hsize : tag.type.size ≤ 8 := by
      cases tag.type <;> decide
    rw [paddedTo] at padded
    rw [Slot.size, ScalarTag.size_add_padding]
    omega
  | string demand =>
    rw [paddedTo] at padded
    rw [Slot.size]
    omega
  | cstring demand =>
    rename_i tag s
    have hlength : s.length ≤ text.length := length_reference_le h demand
    rw [paddedTo] at padded
    rw [Slot.size]
    split <;> omega

end Tag

namespace Node

/-- A tag that was read and demands a reference matches some bytes exactly if its slot may hold the
reference. Then the reference is encoded in every form that it can be given in, and wherever the bytes
stand they are decoded to it as a whole. The text of the tag is taken to be one that fits into memory. -/
theorem decode_reference_iff {s : String} {tag : Tag} (parsed : Tag.parse s = .ok tag)
    (positive : tag.Positive) (padded : tag.paddedTo.toNat < 2 ^ 53) :
    ((∃ options bytes record stop consumed,
          ((leaf tag).decodeRecord options bytes).1 = .ok ⟨some record, stop, consumed⟩) ↔
        tag.Attainable)
      ∧ (tag.Attainable → ∃ value, tag.Demands value)
      ∧ (tag.Attainable → s.length < 2 ^ 63 → ∀ value, tag.Demands value → ∀ capacity order,
          ∃ encoded decoded, ((leaf tag).encode value capacity order).1 = .ok encoded
            ∧ tag.Demands decoded
            ∧ ∀ before behind label,
              ((leaf tag).decodeRecord ⟨before.length, false, label⟩
                  (before ++ encoded.bytes ++ behind)).1
                = .ok ⟨some decoded, before.length + encoded.bytes.length,
                  encoded.bytes.length⟩) := by
  have typed := Tag.wellTyped_of_parse parsed
  refine ⟨⟨?_, fun h => ?_⟩, fun h => h.exists_demands typed,
    fun h short value demands capacity order => ?_⟩
  · rintro ⟨options, bytes, record, stop, consumed, hrecord⟩
    obtain ⟨-, next, hmatch, -⟩ := decodeRecord_eq_ok_some_iff.mp hrecord
    obtain ⟨slot, -, hspells⟩ := Tag.decode_matches_iff.mp hmatch
    exact ((hspells.holds typed).attainable typed positive).1
  · obtain ⟨value, hvalue⟩ := h.exists_demands typed
    obtain ⟨-, decoded, hspells, -⟩ := h.spells_octets typed hvalue
    exact ⟨_, _, _, _, _, decodeRecord_of_spells hspells [] [] ""⟩
  · obtain ⟨hwritable, decoded, hspells, hdecoded⟩ := h.spells_octets typed demands
    have hfault : ((leaf tag).plan none .root value).fault = none :=
      Tag.fault_plan_eq_none_iff.mpr hwritable
    have hbytes : ((leaf tag).plan none .root value).octets = Slot.octets ⟨tag, value⟩ := by
      rw [(covers_plan hfault).octets_eq, slots, List.flatMap_singleton]
    have hsmall : ((leaf tag).plan none .root value).octets.length ≤ signedBound := by
      rw [hbytes, hwritable.written.length_eq]
      exact demands.size_le parsed padded short
    refine ⟨_, decoded, encode_eq_ok hfault hsmall capacity order, hdecoded, ?_⟩
    rw [hbytes]
    exact decodeRecord_of_spells hspells

/-- A number of four bytes that is to equal one tenth. -/
def tenth : ScalarTag := ⟨.float32, .big, 0, some ⟨.real ⟨0x3FB999999999999A⟩, false⟩⟩

/-- A slot of two bytes for a byte that is to equal minus one. -/
def minusOne : ScalarTag := ⟨.int8, .big, 2, some ⟨.integer (-1), false⟩⟩

/-- No number of four bytes is one tenth of eight. Minus one is attained, also by `-1.0`. -/
theorem decode_reference_iff_tenth_minusOne :
    (Tag.parse "float32=0.1" = .ok (.scalar tenth)
        ∧ ¬ ∃ options bytes record stop consumed,
          ((leaf (.scalar tenth)).decodeRecord options bytes).1
            = .ok ⟨some record, stop, consumed⟩)
      ∧ Tag.parse "int8:2=-1" = .ok (.scalar minusOne)
        ∧ ∃ encoded decoded,
          ((leaf (.scalar minusOne)).encode (.number (.real ⟨0xBFF0000000000000⟩)) 0 .big).1
              = .ok encoded
            ∧ ((leaf (.scalar minusOne)).decodeRecord ⟨1, false, ""⟩
                ([9] ++ encoded.bytes ++ [8])).1
              = .ok ⟨some decoded, 1 + encoded.bytes.length, encoded.bytes.length⟩ := by
  have hreal : Reference.SpellsReal "0.1".toList ⟨0x3FB999999999999A⟩ :=
    Reference.real?_eq_some_iff.mp (by decide +kernel)
  have htenth : Tag.parse "float32=0.1" = .ok (.scalar tenth) :=
    Tag.parse_eq_ok_iff_denotes.mpr
      (.scalar (.big .float32) .none (.signed (.equal (.real rfl hreal))))
  have hminusOne : Tag.parse "int8:2=-1" = .ok (.scalar minusOne) := rfl
  refine ⟨⟨htenth, fun hmatch => ?_⟩, hminusOne, ?_⟩
  · have hattainable := (decode_reference_iff htenth ⟨_, rfl⟩ (by decide)).1.mp hmatch
    have hnarrow : ∀ y : Binary32, y.isNaN = false → y.widen ≠ ⟨0x3FB999999999999A⟩ := by
      intro y hy hwide
      have hback := y.narrow_widen hy
      rw [hwide] at hback
      rw [← hback] at hwide
      revert hwide
      decide +kernel
    cases hattainable with
    | scalar demand attains =>
      rw [← (Constraint.mk.inj (Option.some.inj demand)).1] at attains
      generalize hreal : (⟨0x3FB999999999999A⟩ : Binary64) = x at attains
      cases attains with
      | float32 number => exact hnarrow _ number hreal.symm
  · have hvalue : ScalarRef.Equal (.integer (-1)) (.real ⟨0xBFF0000000000000⟩) :=
      ⟨.finite ((-1 : Int64).toInt * Binary64.format.one), by decide +kernel, rfl⟩
    obtain ⟨-, -, hencode⟩ := decode_reference_iff hminusOne ⟨_, rfl⟩ (by decide)
    obtain ⟨encoded, decoded, hencoded, -, hdecoded⟩ :=
      hencode (.scalar rfl (.integer rfl (by decide) (by decide))) (by decide) _
        (.scalar rfl hvalue) 0 .big
    exact ⟨encoded, decoded, hencoded, hdecoded [9] [8] ""⟩

end Node

end ByteRecord
