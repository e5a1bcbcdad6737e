import ByteRecord.Proofs.Tag.Numerals
import ByteRecord.Proofs.Tag.Rereading

/-!
# The grammar of tags

Which texts are tags, and which tag each of them denotes, told without taking a text apart: a base,
an optional width behind a colon and an optional reference behind an equals sign, in front of which
an exclamation mark may stand. Base and width hold none of these marks, so that the first ones of a
text are those between its parts, and a reference may hold any of them. A demand of a scalar has a
second way to be negated; no number ends in an exclamation mark, so that no text has two readings.
-/

namespace ByteRecord

open Reference

namespace Tag

/-- The width of a slot behind a colon, which may be left out. -/
inductive SpellsWidth : List Char → Option UInt64 → Prop
  /-- No width. -/
  | none : SpellsWidth [] none
  /-- A non-empty run of decimal digits whose value is a 64-bit word. -/
  | some {digits : List Char} {width : UInt64} (run : allDigits digits = true)
      (value : decimalNat digits = width.toNat) : SpellsWidth (':' :: digits) (some width)

/-- The name of a scalar type, and of its byte order unless that is the usual one. -/
inductive SpellsBase : List Char → ScalarType → Endian → Prop
  /-- The name of the type. -/
  | big (type : ScalarType) : SpellsBase type.name.toList type .big
  /-- The name of the type and of the order. -/
  | little (type : ScalarType) : SpellsBase (type.name.toList ++ ['l', 'e']) type .little

/-- A demand behind its sign, which may be left out. -/
inductive SpellsDemand {α : Type} (spells : List Char → α → Prop) :
    List Char → Option (Constraint α) → Prop
  /-- No demand. -/
  | none : SpellsDemand spells [] none
  /-- To equal the reference. -/
  | equal {reference : List Char} {value : α} (written : spells reference value) :
      SpellsDemand spells ('=' :: reference) (some ⟨value, false⟩)
  /-- To differ from the reference. -/
  | differ {reference : List Char} {value : α} (written : spells reference value) :
      SpellsDemand spells ('!' :: '=' :: reference) (some ⟨value, true⟩)

/-- The reference of a scalar of the given type. -/
inductive SpellsReference (type : ScalarType) : List Char → ScalarRef → Prop
  /-- An integer of 64 bits. -/
  | integer {reference : List Char} {n : Int64} (kind : type.isFloat = false)
      (number : SpellsInteger reference n.toInt) : SpellsReference type reference (.integer n)
  /-- A floating-point number. -/
  | real {reference : List Char} {x : Binary64} (kind : type.isFloat = true)
      (number : SpellsReal reference x) : SpellsReference type reference (.real x)

/-- The demand of a scalar, which an exclamation mark at the end may negate as well. -/
inductive SpellsScalarDemand (type : ScalarType) :
    List Char → Option (Constraint ScalarRef) → Prop
  /-- A demand with its sign in front. -/
  | signed {demand : List Char} {constraint : Option (Constraint ScalarRef)}
      (written : SpellsDemand (SpellsReference type) demand constraint) :
      SpellsScalarDemand type demand constraint
  /-- To differ from a reference that is marked at its end. -/
  | differ {reference : List Char} {value : ScalarRef}
      (written : SpellsReference type reference value) :
      SpellsScalarDemand type ('=' :: (reference ++ ['!'])) (some ⟨value, true⟩)

/-- A text that denotes a tag. -/
inductive Denotes : List Char → Tag → Prop
  /-- A scalar, as wide as its type unless the width is given. -/
  | scalar {base width demand : List Char} {type : ScalarType} {order : Endian}
      {width? : Option UInt64} {constraint : Option (Constraint ScalarRef)}
      (name : SpellsBase base type order) (padding : SpellsWidth width width?)
      (reference : SpellsScalarDemand type demand constraint) :
      Denotes (base ++ (width ++ demand)) (.scalar ⟨type, order, width?.getD 0, constraint⟩)
  /-- A text of fixed width, which must be given. -/
  | string {width demand : List Char} {paddedTo : UInt64} {constraint : Option (Constraint String)}
      (padding : SpellsWidth width (some paddedTo))
      (reference : SpellsDemand (fun chars s => chars = s.toList) demand constraint) :
      Denotes ("string".toList ++ (width ++ demand)) (.string ⟨paddedTo, constraint⟩)
  /-- A text that ends in a zero byte. -/
  | cstring {width demand : List Char} {width? : Option UInt64}
      {constraint : Option (Constraint String)} (padding : SpellsWidth width width?)
      (reference : SpellsDemand (fun chars s => chars = s.toList) demand constraint) :
      Denotes ("cstring".toList ++ (width ++ demand)) (.cstring ⟨width?.getD 0, constraint⟩)

/-- The digits of a width behind their colon. -/
def digitsChars : Option (List Char) → List Char
  | none => []
  | some digits => ':' :: digits

variable {text : String} {s base width demand reference : List Char} {type : ScalarType}
  {order : Endian} {digits : Option (List Char)} {width? : Option UInt64}
  {raw : Option (Constraint (List Char))}

/-- A text is what stands in front of the first colon and the digits behind it. -/
theorem exists_cut_colon (s : List Char) :
    ∃ base digits, s = base ++ digitsChars digits ∧ cut ':' s = (base, digits) := by
  by_cases hmem : ':' ∈ s
  · obtain ⟨front, back, rfl, hfront⟩ := List.eq_append_cons_of_mem hmem
    exact ⟨front, some back, rfl, cut_append hfront⟩
  · exact ⟨s, none, (List.append_nil s).symm, cut_of_notMem hmem⟩

/-- A text is the mark at its end and what stands in front of it, or it is not marked. -/
theorem takeMark_cases (s : List Char) :
    (∃ front, s = front ++ ['!'] ∧ takeMark s = (true, front)) ∨
      s.getLast? ≠ some '!' ∧ takeMark s = (false, s) := by
  by_cases hlast : s.getLast? = some '!'
  · obtain ⟨front, rfl⟩ := List.getLast?_eq_some_iff.mp hlast
    exact Or.inl ⟨front, rfl, takeMark_append front⟩
  · exact Or.inr ⟨hlast, if_neg hlast⟩

/-- A text is what stands in front of the first equals sign and the demand behind it. -/
theorem exists_parts (s : List Char) :
    ∃ base digits, ∃ raw : Option (Constraint (List Char)),
      s = base ++ (digitsChars digits ++ constraintChars id raw)
        ∧ parts s = ⟨base, digits, raw.map Constraint.value, raw.any Constraint.negated⟩ := by
  by_cases hmem : '=' ∈ s
  · obtain ⟨front, reference, rfl, hfront⟩ := List.eq_append_cons_of_mem hmem
    rcases takeMark_cases front with ⟨shape, rfl, hmark⟩ | ⟨-, hmark⟩
    · obtain ⟨base, digits, rfl, hcolon⟩ := exists_cut_colon shape
      refine ⟨base, digits, some ⟨reference, true⟩, ?_, ?_⟩
      · simp only [constraintChars, if_true, List.append_assoc, List.cons_append, List.nil_append,
          id_eq]
      · simp only [parts, cut_append hfront, hmark, hcolon]
        rfl
    · obtain ⟨base, digits, rfl, hcolon⟩ := exists_cut_colon front
      refine ⟨base, digits, some ⟨reference, false⟩, ?_, ?_⟩
      · simp only [constraintChars, Bool.false_eq_true, if_false, List.append_assoc,
          List.cons_append, List.nil_append, id_eq]
      · simp only [parts, cut_append hfront, hmark, hcolon]
        rfl
  · obtain ⟨base, digits, hs, hcolon⟩ := exists_cut_colon s
    refine ⟨base, digits, none, ?_, ?_⟩
    · rwa [constraintChars, List.append_nil]
    · simp only [parts, cut_of_notMem hmem, hcolon]
      rfl

/-- A base with none of the marks, digits behind it and a demand are taken apart. -/
theorem parts_eq (hequals : '=' ∉ base) (hmark : '!' ∉ base) (hcolon : ':' ∉ base)
    (hdigits : ∀ run ∈ digits, allDigits run = true) :
    parts (base ++ (digitsChars digits ++ constraintChars id raw))
      = ⟨base, digits, raw.map Constraint.value, raw.any Constraint.negated⟩ := by
  have hnone : ∀ c, c ≠ ':' → c.isDigit = false → c ∉ base → c ∉ base ++ digitsChars digits := by
    intro c hother hdigit hbase hmem
    rcases List.mem_append.mp hmem with hmem | hmem
    · exact hbase hmem
    · cases digits with
      | none => cases hmem
      | some run =>
        rcases List.mem_cons.mp hmem with hmem | hmem
        · exact hother hmem
        · rw [(allDigits_iff.mp (hdigits run rfl)).2 c hmem] at hdigit
          cases hdigit
  have hcut : cut ':' (base ++ digitsChars digits) = (base, digits) := by
    cases digits with
    | none =>
      rw [digitsChars, List.append_nil]
      exact cut_of_notMem hcolon
    | some run => exact cut_append hcolon
  rw [← List.append_assoc, parts_append id raw (hnone '=' (by decide) (by decide) hequals)
    (hnone '!' (by decide) (by decide) hmark), hcut]
  rfl

/-- A width is read exactly from digits that spell it. -/
theorem readWidth_eq_ok_iff {digits : List Char} {width : UInt64} :
    readWidth text digits = .ok width
      ↔ allDigits digits = true ∧ decimalNat digits = width.toNat := by
  have hword : greatestWord = 2 ^ 64 - 1 := rfl
  have hsize : UInt64.size = 2 ^ 64 := rfl
  have hlt := width.toNat_lt
  cases hrun : allDigits digits with
  | false =>
    rw [readWidth, hrun]
    constructor
    · intro h
      cases h
    · rintro ⟨h, -⟩
      cases h
  | true =>
    rw [readWidth_of_digits text hrun]
    by_cases hfits : decimalNat digits ≤ greatestWord
    · rw [if_pos hfits]
      constructor
      · intro h
        rw [← Except.ok.inj h, UInt64.toNat_ofNat_of_lt' (by omega)]
        exact ⟨rfl, rfl⟩
      · rintro ⟨-, hvalue⟩
        rw [hvalue, UInt64.ofNat_toNat]
    · rw [if_neg hfits]
      constructor
      · intro h
        cases h
      · rintro ⟨-, hvalue⟩
        omega

/-- A width that may be left out is read exactly if its digits, where there are any, spell a width in
range. -/
theorem mapM_readWidth_eq_ok_iff :
    digits.mapM (readWidth text) = .ok width? ↔ SpellsWidth (digitsChars digits) width? := by
  cases digits with
  | none =>
    constructor
    · intro h
      rw [← Except.ok.inj h]
      exact .none
    · intro h
      cases h
      rfl
  | some run =>
    rw [Option.mapM_some]
    constructor
    · intro h
      obtain ⟨width, hwidth, h⟩ := map_eq_ok_iff.mp h
      obtain ⟨hrun, hvalue⟩ := readWidth_eq_ok_iff.mp hwidth
      rw [← h]
      exact .some hrun hvalue
    · intro h
      cases h with
      | some hrun hvalue =>
        exact map_eq_ok_iff.mpr ⟨_, readWidth_eq_ok_iff.mpr ⟨hrun, hvalue⟩, rfl⟩

/-- A written width is one of those that are taken apart. -/
theorem SpellsWidth.exists_digits (h : SpellsWidth width width?) :
    ∃ digits, width = digitsChars digits ∧ ∀ run ∈ digits, allDigits run = true := by
  cases h with
  | none => exact ⟨Option.none, rfl, fun run hrun => by cases hrun⟩
  | some run value => exact ⟨Option.some _, rfl, fun other hother => Option.some.inj hother ▸ run⟩

/-- A reference is read exactly from the texts that spell it. -/
theorem readReference_eq_ok_iff {value : ScalarRef} :
    readReference text type reference = .ok value ↔ SpellsReference type reference value := by
  constructor
  · intro h
    unfold readReference at h
    split at h
    · rename_i hkind
      split at h
      · rename_i x hx
        rw [← Except.ok.inj h]
        exact .real hkind (real?_eq_some_iff.mp hx)
      · cases h
    · rename_i hkind
      split at h
      · rename_i n hn
        rw [← Except.ok.inj h]
        exact .integer (Bool.eq_false_iff.mpr hkind) (integer?_eq_some_iff.mp hn)
      · cases h
  · intro h
    cases h with
    | integer kind number =>
      simp only [readReference, kind, integer?_eq_some_iff.mpr number, Bool.false_eq_true, if_false]
    | real kind number => simp only [readReference, kind, real?_eq_some_iff.mpr number, if_true]

/-- No reference of a scalar ends in an exclamation mark. -/
theorem SpellsReference.getLast?_ne {value : ScalarRef}
    (h : SpellsReference type reference value) : reference.getLast? ≠ some '!' := by
  intro hlast
  cases h with
  | integer kind number => exact number.mark_notMem (List.mem_of_getLast? hlast)
  | real kind number => exact number.mark_notMem (List.mem_of_getLast? hlast)

section Demand

variable {α : Type} {spells : List Char → α → Prop} {constraint : Option (Constraint α)}

/-- Nothing is demanded where nothing is written. -/
theorem spellsDemand_nil_iff : SpellsDemand spells [] constraint ↔ constraint = none := by
  constructor
  · intro h
    cases h
    rfl
  · rintro rfl
    exact .none

/-- A demand is written behind its sign. -/
theorem spellsDemand_some_iff {negated : Bool} :
    SpellsDemand spells (constraintChars id (some ⟨reference, negated⟩)) constraint
      ↔ ∃ value, spells reference value ∧ constraint = some ⟨value, negated⟩ := by
  cases negated with
  | false =>
    constructor
    · intro h
      cases h with
      | equal written => exact ⟨_, written, rfl⟩
    · rintro ⟨value, written, rfl⟩
      exact .equal written
  | true =>
    constructor
    · intro h
      cases h with
      | differ written => exact ⟨_, written, rfl⟩
    · rintro ⟨value, written, rfl⟩
      exact .differ written

/-- A written demand is one of those that are taken apart. -/
theorem SpellsDemand.exists_raw (h : SpellsDemand spells demand constraint) :
    ∃ raw, demand = constraintChars id raw := by
  cases h with
  | none => exact ⟨Option.none, rfl⟩
  | equal written => exact ⟨some ⟨_, false⟩, rfl⟩
  | differ written => exact ⟨some ⟨_, true⟩, rfl⟩

end Demand

section ScalarDemand

variable {constraint : Option (Constraint ScalarRef)}

theorem SpellsScalarDemand.exists_raw (h : SpellsScalarDemand type demand constraint) :
    ∃ raw, demand = constraintChars id raw := by
  cases h with
  | signed written => exact written.exists_raw
  | differ written => exact ⟨some ⟨_, false⟩, rfl⟩

/-- A scalar demand without a mark in front may have one at its end. -/
theorem spellsScalarDemand_equal_iff :
    SpellsScalarDemand type (constraintChars id (some ⟨reference, false⟩)) constraint ↔
      (∃ value, SpellsReference type reference value ∧ constraint = some ⟨value, false⟩) ∨
        ∃ front value, reference = front ++ ['!'] ∧ SpellsReference type front value
          ∧ constraint = some ⟨value, true⟩ := by
  constructor
  · intro h
    cases h with
    | signed written => exact Or.inl (spellsDemand_some_iff.mp written)
    | differ written => exact Or.inr ⟨_, _, rfl, written, rfl⟩
  · rintro (h | ⟨front, value, rfl, written, rfl⟩)
    · exact .signed (spellsDemand_some_iff.mpr h)
    · exact .differ written

/-- A reference is read, and the demand on it made of it, exactly if a text spells it. -/
theorem readReference_bind_eq_ok_iff {negated : Bool} :
    (readReference text type reference >>= fun value =>
        (Except.ok (some ⟨value, negated⟩) : Except TagError (Option (Constraint ScalarRef))))
      = .ok constraint
    ↔ ∃ value, SpellsReference type reference value ∧ constraint = some ⟨value, negated⟩ := by
  rw [bind_eq_ok_iff]
  refine exists_congr fun value => and_congr readReference_eq_ok_iff ?_
  rw [Except.ok.injEq, eq_comm]

/-- The demand of a scalar is read exactly from the texts that spell it. -/
theorem scalarConstraint_eq_ok_iff :
    scalarConstraint text type
        ⟨base, digits, raw.map Constraint.value, raw.any Constraint.negated⟩ = .ok constraint
      ↔ SpellsScalarDemand type (constraintChars id raw) constraint := by
  rcases raw with - | ⟨reference, negated⟩
  · constructor
    · intro h
      rw [← Except.ok.inj h]
      exact .signed .none
    · intro h
      cases h with
      | signed written => rw [spellsDemand_nil_iff.mp written]; rfl
  cases negated with
  | true =>
    refine readReference_bind_eq_ok_iff.trans ⟨fun h => .signed (spellsDemand_some_iff.mpr h), ?_⟩
    intro h
    cases h with
    | signed written => exact spellsDemand_some_iff.mp written
  | false =>
    refine Iff.trans ?_ spellsScalarDemand_equal_iff.symm
    rcases takeMark_cases reference with ⟨front, rfl, hmark⟩ | ⟨hlast, hmark⟩
    · simp only [scalarConstraint, Option.map_some, Option.any_some, hmark]
      refine readReference_bind_eq_ok_iff.trans ⟨?_, ?_⟩
      · rintro ⟨value, written, rfl⟩
        exact Or.inr ⟨front, value, rfl, written, rfl⟩
      · rintro (⟨value, written, -⟩ | ⟨other, value, hfront, written, rfl⟩)
        · exact absurd List.getLast?_concat written.getLast?_ne
        · obtain rfl : front = other := List.append_cancel_right hfront
          exact ⟨value, written, rfl⟩
    · simp only [scalarConstraint, Option.map_some, Option.any_some, hmark]
      refine readReference_bind_eq_ok_iff.trans ⟨Or.inl, ?_⟩
      rintro (h | ⟨front, value, rfl, -, -⟩)
      · exact h
      · exact absurd List.getLast?_concat hlast

end ScalarDemand

/-- The demand of a text is to equal whatever follows its sign, or to differ from it. -/
theorem textConstraint_eq_iff {constraint : Option (Constraint String)} :
    textConstraint ⟨base, digits, raw.map Constraint.value, raw.any Constraint.negated⟩ = constraint
      ↔ SpellsDemand (fun chars s => chars = s.toList) (constraintChars id raw) constraint := by
  have hvalue : ∀ (negated : Bool) (reference : List Char),
      some ⟨String.ofList reference, negated⟩ = constraint
        ↔ ∃ s : String, reference = s.toList ∧ constraint = some ⟨s, negated⟩ := by
    intro negated reference
    constructor
    · rintro rfl
      exact ⟨_, String.toList_ofList.symm, rfl⟩
    · rintro ⟨s, rfl, rfl⟩
      rw [String.ofList_toList]
  rcases raw with - | ⟨reference, negated⟩
  · exact eq_comm.trans spellsDemand_nil_iff.symm
  refine Iff.trans ?_ spellsDemand_some_iff.symm
  exact hvalue negated reference

/-- The base of a scalar holds none of the marks and is no name of a text. -/
theorem SpellsBase.scalarBase?_eq (h : SpellsBase base type order) :
    scalarBase? base = some (type, order) ∧ base ≠ "string".toList ∧ base ≠ "cstring".toList
      ∧ '=' ∉ base ∧ '!' ∉ base ∧ ':' ∉ base := by
  cases h with
  | big =>
    have hname := scalarBase?_name type .big
    rwa [if_neg (by decide), List.append_nil] at hname
  | little => exact scalarBase?_name type .little

/-- The type of a name has this name. -/
theorem name_of_ofName? {name : String} (h : ScalarType.ofName? name = some type) :
    type.name = name := by
  have hname := List.find?_some h
  exact beq_iff_eq.mp hname

/-- The base of a scalar is read exactly from the texts that spell it. -/
theorem scalarBase?_eq_some_iff :
    scalarBase? base = some (type, order) ↔ SpellsBase base type order := by
  constructor
  · intro h
    unfold scalarBase? at h
    dsimp only at h
    split at h
    · rename_i named hlittle
      injection h with h
      injection h with htype horder
      subst htype horder
      split at hlittle
      · rename_i hend
        have hbase := List.take_append_drop (base.length - 2) base
        rw [hend] at hbase
        have hname := congrArg String.toList (name_of_ofName? hlittle)
        rw [String.toList_ofList] at hname
        rw [← hbase, ← hname]
        exact .little named
      · cases hlittle
    · obtain ⟨named, hnamed, hpair⟩ := Option.map_eq_some_iff.mp h
      injection hpair with htype horder
      subst htype horder
      have hname := congrArg String.toList (name_of_ofName? hnamed)
      rw [String.toList_ofList] at hname
      rw [← hname]
      exact .big named
  · exact fun h => h.scalarBase?_eq.1

/-- A text is read as a tag exactly if it denotes it. -/
theorem parse_eq_ok_iff_denotes {s : String} {tag : Tag} :
    parse s = .ok tag ↔ Denotes s.toList tag := by
  constructor
  · intro h
    obtain ⟨base, digits, raw, hs, hparts⟩ := exists_parts s.toList
    rw [parse, hparts] at h
    obtain ⟨width?, hwidth, h⟩ := bind_eq_ok_iff.mp h
    have padding := mapM_readWidth_eq_ok_iff.mp hwidth
    dsimp only at h
    rw [hs]
    split at h
    · rename_i hbase
      split at h
      · cases h
      · rename_i hsome
        obtain ⟨paddedTo, rfl⟩ := Option.ne_none_iff_exists'.mp
          (mt Option.isNone_iff_eq_none.mpr hsome)
        rw [← Except.ok.inj h, hbase]
        exact .string padding (textConstraint_eq_iff.mp rfl)
    · split at h
      · rename_i hbase
        rw [← Except.ok.inj h, hbase]
        exact .cstring padding (textConstraint_eq_iff.mp rfl)
      · split at h
        · cases h
        · rename_i type order hbase
          obtain ⟨constraint, hconstraint, h⟩ := bind_eq_ok_iff.mp h
          rw [← Except.ok.inj h]
          exact .scalar (scalarBase?_eq_some_iff.mp hbase) padding
            (scalarConstraint_eq_ok_iff.mp hconstraint)
  · intro h
    generalize hs : s.toList = chars at h
    rw [parse, hs]
    cases h with
    | @scalar base width demand type order width? constraint name padding reference =>
      obtain ⟨hbase, hstring, hcstring, hequals, hmark, hcolon⟩ := name.scalarBase?_eq
      obtain ⟨digits, rfl, hdigits⟩ := padding.exists_digits
      obtain ⟨raw, rfl⟩ := reference.exists_raw
      rw [parts_eq hequals hmark hcolon hdigits]
      refine bind_eq_ok_iff.mpr ⟨width?, mapM_readWidth_eq_ok_iff.mpr padding, ?_⟩
      simp only [if_neg hstring, if_neg hcstring, hbase, scalarConstraint_eq_ok_iff.mpr reference]
      rfl
    | string padding reference =>
      obtain ⟨digits, rfl, hdigits⟩ := padding.exists_digits
      obtain ⟨raw, rfl⟩ := reference.exists_raw
      rw [parts_eq (by decide) (by decide) (by decide) hdigits]
      refine bind_eq_ok_iff.mpr ⟨_, mapM_readWidth_eq_ok_iff.mpr padding, ?_⟩
      rw [textConstraint_eq_iff.mpr reference]
      rfl
    | cstring padding reference =>
      obtain ⟨digits, rfl, hdigits⟩ := padding.exists_digits
      obtain ⟨raw, rfl⟩ := reference.exists_raw
      rw [parts_eq (by decide) (by decide) (by decide) hdigits]
      refine bind_eq_ok_iff.mpr ⟨_, mapM_readWidth_eq_ok_iff.mpr padding, ?_⟩
      rw [textConstraint_eq_iff.mpr reference]
      rfl

/-- A text is read as a tag exactly if it denotes that tag, and it is a tag if it denotes any. -/
theorem parse_eq_ok_iff (s : String) :
    (∀ tag, parse s = .ok tag ↔ Denotes s.toList tag)
      ∧ (isTag s = true ↔ ∃ tag, Denotes s.toList tag) := by
  refine ⟨fun tag => parse_eq_ok_iff_denotes, ?_⟩
  constructor
  · intro h
    cases hparse : parse s with
    | error cause =>
      rw [isTag, hparse] at h
      cases h
    | ok tag => exact ⟨tag, parse_eq_ok_iff_denotes.mp hparse⟩
  · rintro ⟨tag, h⟩
    rw [isTag, parse_eq_ok_iff_denotes.mpr h]
    rfl

end Tag

end ByteRecord
