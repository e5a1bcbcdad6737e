import ByteRecord.Proofs.Success
import ByteRecord.Proofs.Tag.Numerals
import ByteRecord.Tag.Grammar

/-!
# Tags that read back

A tag is written as its base, its width and its reference, and taking the written form apart gives
these three again: no base and no width holds one of the marks between them. What was read as a tag is
therefore read again from its written form, unless its reference is not finite, for which there is no
written form. Of the printer of floating-point numbers nothing is used but `RealPrinter.ReadsBack`:
that a text is read as a number already tells that no mark is in it.
-/

namespace ByteRecord

open DecimalLayout

namespace ScalarRef

/-- Whether the reference is a floating-point number. -/
def isReal : ScalarRef → Bool
  | integer _ => false
  | real _ => true

/-- Whether the reference is an integer or a finite floating-point number. -/
def isFinite : ScalarRef → Bool
  | integer _ => true
  | real x => x.isFinite

/-- No exclamation mark occurs in a written reference. -/
theorem mark_notMem_chars [printer : RealPrinter] (library : printer.ReadsBack) {ref : ScalarRef}
    (finite : ref.isFinite = true) : '!' ∉ ref.chars := by
  cases ref with
  | integer n =>
    intro hmark
    rw [chars, Number.integerText] at hmark
    split at hmark
    · obtain hminus | hdigit := List.mem_cons.mp hmark
      · cases hminus
      · cases isDigit_of_mem_digits hdigit
    · cases isDigit_of_mem_digits hmark
  | real x => exact (Reference.real?_eq_some_iff.mp (library.finite finite)).mark_notMem

end ScalarRef

namespace Tag

/-- The reference of a scalar is of the kind of its values. -/
def WellTyped : Tag → Prop
  | scalar tag => tag.constraint.all (fun demand => demand.value.isReal == tag.type.isFloat) = true
  | _ => True

/-- The reference of a typed scalar is of the kind of its type. -/
theorem WellTyped.isReal_eq {tag : ScalarTag} {demand : Constraint ScalarRef}
    (typed : (scalar tag).WellTyped) (h : tag.constraint = some demand) :
    demand.value.isReal = tag.type.isFloat := by
  rw [WellTyped, h] at typed
  exact beq_iff_eq.mp typed

/-- The reference of a scalar is not a floating-point number beyond the finite ones. -/
def FiniteReference : Tag → Prop
  | scalar tag => tag.constraint.all (fun demand => demand.value.isFinite) = true
  | _ => True

variable {tag : Tag} {shape front back : List Char} {mark : Char}

theorem bne_of_notMem (h : mark ∉ front) : ∀ c ∈ front, (c != mark) = true := by
  intro c hc
  rw [bne_iff_ne]
  rintro rfl
  exact h hc

/-- A text is cut at the first mark. -/
theorem cut_append (h : mark ∉ front) : cut mark (front ++ mark :: back) = (front, some back) := by
  have hspan : (front ++ mark :: back).span (· != mark) = (front, mark :: back) :=
    span_append (bne_of_notMem h) fun c hc => by
      rw [← Option.mem_some.mp hc, bne_self_eq_false]
  rw [cut, hspan]

/-- A text without the mark is not cut. -/
theorem cut_of_notMem (h : mark ∉ front) : cut mark front = (front, none) := by
  have hspan : (front ++ []).span (· != mark) = (front, []) :=
    span_append (bne_of_notMem h) (by simp)
  rw [List.append_nil] at hspan
  rw [cut, hspan]

theorem takeMark_append (s : List Char) : takeMark (s ++ ['!']) = (true, s) := by
  rw [takeMark, List.getLast?_concat, if_pos rfl, List.dropLast_concat]

theorem takeMark_of_notMem (h : '!' ∉ front) : takeMark front = (false, front) := by
  rw [takeMark, if_neg fun hlast => h (List.mem_of_getLast? hlast)]

/-- A shape and a demand behind it are taken apart at the equals sign. -/
theorem parts_append {α : Type} (written : α → List Char) (demand : Option (Constraint α))
    (hequals : '=' ∉ shape) (hmark : '!' ∉ shape) :
    parts (shape ++ constraintChars written demand)
      = ⟨(cut ':' shape).1, (cut ':' shape).2, demand.map fun demand => written demand.value,
        demand.any Constraint.negated⟩ := by
  cases demand with
  | none =>
    rw [constraintChars, List.append_nil, parts, cut_of_notMem hequals]
    rfl
  | some demand =>
    obtain ⟨value, negated⟩ := demand
    cases negated with
    | false =>
      have hcut : cut '=' (shape ++ '=' :: written value) = (shape, some (written value)) :=
        cut_append hequals
      have hparts : parts (shape ++ '=' :: written value)
          = ⟨(cut ':' shape).1, (cut ':' shape).2, some (written value), false⟩ := by
        rw [parts, hcut]
        simp only [takeMark_of_notMem hmark]
      exact hparts
    | true =>
      have hboth : '=' ∉ shape ++ ['!'] := by
        rw [List.mem_append, not_or]
        exact ⟨hequals, by decide⟩
      have hcut : cut '=' (shape ++ ['!'] ++ '=' :: written value)
          = (shape ++ ['!'], some (written value)) := cut_append hboth
      have hparts : parts (shape ++ ['!'] ++ '=' :: written value)
          = ⟨(cut ':' shape).1, (cut ':' shape).2, some (written value), true⟩ := by
        rw [parts, hcut]
        simp only [takeMark_append]
      rwa [List.append_assoc] at hparts

/-- A run of digits is read as a width, unless its number is beyond the unsigned 64-bit ones. -/
theorem readWidth_of_digits (text : String) {s : List Char} (run : allDigits s = true) :
    readWidth text s
      = if decimalNat s ≤ greatestWord then .ok (UInt64.ofNat (decimalNat s))
        else .error (.paddingOverflow text) := by
  rw [readWidth, run, boundedNat?_eq (by decide) (allDigits_iff.mp run).2]
  by_cases hfits : decimalNat s ≤ greatestWord
  · rw [if_pos hfits, if_pos hfits]
    rfl
  · rw [if_neg hfits, if_neg hfits]
    rfl

/-- A width is read back from its digits. -/
theorem readWidth_digits (text : String) (width : UInt64) :
    readWidth text (digits width.toNat) = .ok width := by
  have hbound : width.toNat ≤ greatestWord := by
    have hword : greatestWord = 2 ^ 64 - 1 := rfl
    have hlt := width.toNat_lt
    omega
  rw [readWidth_of_digits text (allDigits_digits _), decimalNat_digits, if_pos hbound,
    UInt64.ofNat_toNat]

/-- The base of a scalar tag is read as its type and its order, and holds none of the marks. -/
theorem scalarBase?_name (type : ScalarType) (order : Endian) :
    let base := type.name.toList ++ if order = .little then ['l', 'e'] else []
    scalarBase? base = some (type, order) ∧ base ≠ "string".toList ∧ base ≠ "cstring".toList
      ∧ '=' ∉ base ∧ '!' ∉ base ∧ ':' ∉ base := by
  cases type <;> cases order <;> decide

/-- A written width is none of the marks of a tag but the colon. -/
theorem notMem_widthChars {c : Char} (hcolon : c ≠ ':') (hdigit : c.isDigit = false)
    (width : UInt64) : c ∉ widthChars width := by
  intro hmem
  obtain hc | hc := List.mem_cons.mp hmem
  · exact hcolon hc
  · rw [isDigit_of_mem_digits hc] at hdigit
    cases hdigit

theorem cut_widthChars {base : List Char} (h : ':' ∉ base) (width : UInt64) :
    cut ':' (base ++ widthChars width) = (base, some (digits width.toNat)) := cut_append h

theorem cut_widthCharsIfAny {base : List Char} (h : ':' ∉ base) (width : UInt64) :
    cut ':' (base ++ widthCharsIfAny width)
      = (base, if width = 0 then none else some (digits width.toNat)) := by
  unfold widthCharsIfAny
  split
  · rw [List.append_nil, cut_of_notMem h]
  · exact cut_widthChars h width

theorem notMem_widthCharsIfAny {c : Char} (hcolon : c ≠ ':') (hdigit : c.isDigit = false)
    (width : UInt64) : c ∉ widthCharsIfAny width := by
  unfold widthCharsIfAny
  split
  · exact List.not_mem_nil
  · exact notMem_widthChars hcolon hdigit width

/-- A width that is left out is zero. -/
theorem exists_readWidth_ifAny (text : String) (width : UInt64) :
    ∃ width?, (if width = 0 then none else some (digits width.toNat)).mapM (readWidth text)
      = Except.ok width? ∧ width?.getD 0 = width := by
  by_cases hzero : width = 0
  · rw [if_pos hzero]
    exact ⟨none, rfl, hzero.symm⟩
  · rw [if_neg hzero, Option.mapM_some, readWidth_digits]
    exact ⟨some width, rfl, rfl⟩

/-- The demand of a text is read back. -/
theorem textConstraint_eq (constraint : Option (Constraint String)) (base : List Char)
    (width : Option (List Char)) :
    textConstraint ⟨base, width, constraint.map fun demand => demand.value.toList,
      constraint.any Constraint.negated⟩ = constraint := by
  cases constraint with
  | none => rfl
  | some demand => simp [textConstraint]

theorem isReal_of_readReference {text : String} {type : ScalarType} {reference : List Char}
    {ref : ScalarRef} (h : readReference text type reference = .ok ref) :
    ref.isReal = type.isFloat := by
  unfold readReference at h
  split at h
  · rename_i hfloat
    split at h
    · injection h with h
      rw [← h, hfloat]
      rfl
    · cases h
  · rename_i hfloat
    split at h
    · injection h with h
      rw [← h, Bool.eq_false_iff.mpr hfloat]
      rfl
    · cases h

theorem isReal_of_scalarConstraint {text : String} {type : ScalarType} {parts : Parts}
    {constraint : Option (Constraint ScalarRef)}
    (h : scalarConstraint text type parts = .ok constraint) :
    constraint.all (fun demand => demand.value.isReal == type.isFloat) = true := by
  unfold scalarConstraint at h
  split at h
  · injection h with h
    rw [← h, Option.all_none]
  · obtain ⟨value, hvalue, h⟩ := bind_eq_ok_iff.mp h
    injection h with h
    rw [← h, Option.all_some]
    exact beq_iff_eq.mpr (isReal_of_readReference hvalue)

/-- The reference of a tag that was read is of the kind of its values. -/
theorem wellTyped_of_parse {s : String} (h : parse s = .ok tag) : tag.WellTyped := by
  rw [parse, parseParts] at h
  obtain ⟨width?, -, h⟩ := bind_eq_ok_iff.mp h
  dsimp only at h
  split at h
  · split at h
    · cases h
    · injection h with h
      exact h ▸ trivial
  · split at h
    · injection h with h
      exact h ▸ trivial
    · split at h
      · cases h
      · obtain ⟨constraint, hconstraint, h⟩ := bind_eq_ok_iff.mp h
        injection h with h
        rw [← h]
        exact isReal_of_scalarConstraint hconstraint

section Written

variable [printer : RealPrinter]

/-- The demand of a scalar is read back. -/
theorem scalarConstraint_eq (library : printer.ReadsBack) {tag : ScalarTag}
    (typed : (scalar tag).WellTyped) (finite : (scalar tag).FiniteReference) (text : String)
    (base : List Char) (width : Option (List Char)) :
    scalarConstraint text tag.type ⟨base, width,
        tag.constraint.map fun demand => demand.value.chars,
        tag.constraint.any Constraint.negated⟩ = .ok tag.constraint := by
  rw [WellTyped] at typed
  rw [FiniteReference] at finite
  cases hdemand : tag.constraint with
  | none => rfl
  | some demand =>
    obtain ⟨value, negated⟩ := demand
    rw [hdemand, Option.all_some] at typed finite
    have htyped : value.isReal = tag.type.isFloat := beq_iff_eq.mp typed
    have hfinite : value.isFinite = true := finite
    have hsign : (if negated = true then (true, value.chars) else takeMark value.chars)
        = (negated, value.chars) := by
      cases negated
      · exact takeMark_of_notMem (ScalarRef.mark_notMem_chars library hfinite)
      · rfl
    have hvalue : readReference text tag.type value.chars = .ok value := by
      rw [readReference, ← htyped]
      cases value with
      | integer n =>
        simp only [ScalarRef.isReal, ScalarRef.chars, Reference.integer?_integerText,
          Bool.false_eq_true, if_false]
      | real x =>
        rw [ScalarRef.isFinite] at hfinite
        simp only [ScalarRef.isReal, ScalarRef.chars, library.finite hfinite, if_true]
    simp only [scalarConstraint, Option.map_some, Option.any_some, hsign, hvalue]
    rfl

/-- A scalar tag is taken apart into its name, its width and its reference. -/
theorem parts_scalar (tag : ScalarTag) :
    parts (scalar tag).chars
      = ⟨tag.type.name.toList ++ if tag.order = .little then ['l', 'e'] else [],
        if tag.paddedTo = 0 then none else some (digits tag.paddedTo.toNat),
        tag.constraint.map fun demand => demand.value.chars,
        tag.constraint.any Constraint.negated⟩ := by
  obtain ⟨-, -, -, hequals, hmark, hcolon⟩ := scalarBase?_name tag.type tag.order
  unfold chars
  rw [parts_append, cut_widthCharsIfAny hcolon]
  · exact fun h => (List.mem_append.mp h).elim hequals
      (notMem_widthCharsIfAny (by decide) (by decide) _)
  · exact fun h => (List.mem_append.mp h).elim hmark
      (notMem_widthCharsIfAny (by decide) (by decide) _)

/-- So is the tag of a text of fixed width. -/
theorem parts_string (tag : TextTag) :
    parts (string tag).chars
      = ⟨"string".toList, some (digits tag.paddedTo.toNat),
        tag.constraint.map fun demand => demand.value.toList,
        tag.constraint.any Constraint.negated⟩ := by
  unfold chars
  rw [parts_append, cut_widthChars (by decide)]
  · exact fun h => (List.mem_append.mp h).elim (by decide)
      (notMem_widthChars (by decide) (by decide) _)
  · exact fun h => (List.mem_append.mp h).elim (by decide)
      (notMem_widthChars (by decide) (by decide) _)

/-- So is the tag of a text that ends in a zero byte. -/
theorem parts_cstring (tag : TextTag) :
    parts (cstring tag).chars
      = ⟨"cstring".toList,
        if tag.paddedTo = 0 then none else some (digits tag.paddedTo.toNat),
        tag.constraint.map fun demand => demand.value.toList,
        tag.constraint.any Constraint.negated⟩ := by
  unfold chars
  rw [parts_append, cut_widthCharsIfAny (by decide)]
  · exact fun h => (List.mem_append.mp h).elim (by decide)
      (notMem_widthCharsIfAny (by decide) (by decide) _)
  · exact fun h => (List.mem_append.mp h).elim (by decide)
      (notMem_widthCharsIfAny (by decide) (by decide) _)

/-- A tag is read back from its written form. -/
theorem parse_text (library : printer.ReadsBack) (typed : tag.WellTyped)
    (finite : tag.FiniteReference) : parse tag.text = .ok tag := by
  rw [parse, show tag.text.toList = tag.chars from String.toList_ofList]
  generalize tag.text = text
  cases tag with
  | scalar tag =>
    obtain ⟨hbase, hstring, hcstring, -⟩ := scalarBase?_name tag.type tag.order
    obtain ⟨width?, hwidth, hvalue⟩ := exists_readWidth_ifAny text tag.paddedTo
    have hconstraint := scalarConstraint_eq library typed finite text
    rw [parts_scalar, parseParts, hwidth]
    refine bind_eq_ok_iff.mpr ⟨width?, rfl, ?_⟩
    simp only [hstring, hcstring, hbase, hconstraint, hvalue, if_false]
    rfl
  | string tag =>
    have hconstraint := textConstraint_eq tag.constraint
    rw [parts_string, parseParts, Option.mapM_some, readWidth_digits]
    refine bind_eq_ok_iff.mpr ⟨some tag.paddedTo, rfl, ?_⟩
    rw [hconstraint]
    rfl
  | cstring tag =>
    obtain ⟨width?, hwidth, hvalue⟩ := exists_readWidth_ifAny text tag.paddedTo
    have hconstraint := textConstraint_eq tag.constraint
    rw [parts_cstring, parseParts, hwidth]
    refine bind_eq_ok_iff.mpr ⟨width?, rfl, ?_⟩
    rw [hconstraint, hvalue]
    rfl

/-- What is written for a number that is not finite is read as no number. -/
theorem parse_text_of_not_finite (library : printer.ReadsBack) (typed : tag.WellTyped)
    (infinite : ¬ tag.FiniteReference) :
    parse tag.text = .error (.invalidReal "null" tag.text) := by
  rw [parse, show tag.text.toList = tag.chars from String.toList_ofList]
  generalize tag.text = text
  cases tag with
  | scalar tag =>
    rw [WellTyped] at typed
    rw [FiniteReference] at infinite
    cases hdemand : tag.constraint with
    | none => exact absurd (by rw [hdemand, Option.all_none]) infinite
    | some demand =>
      obtain ⟨value, negated⟩ := demand
      rw [hdemand, Option.all_some] at typed infinite
      cases value with
      | integer n => exact absurd rfl infinite
      | real x =>
        have hfloat : true = tag.type.isFloat := beq_iff_eq.mp typed
        have hchars : (ScalarRef.real x).chars = "null".toList :=
          library.null (Bool.eq_false_iff.mpr infinite)
        have hsign : (if negated = true then (true, "null".toList) else takeMark "null".toList)
            = (negated, "null".toList) := by
          cases negated <;> rfl
        have hread : Reference.real? "null".toList = none := by decide +kernel
        obtain ⟨hbase, hstring, hcstring, -⟩ := scalarBase?_name tag.type tag.order
        obtain ⟨width?, hwidth, -⟩ := exists_readWidth_ifAny text tag.paddedTo
        rw [parts_scalar, parseParts, hwidth, hdemand]
        simp only [Option.map_some, Option.any_some, hchars, hstring, hcstring, hbase,
          scalarConstraint, hsign, readReference, ← hfloat, hread, if_true, if_false]
        rfl
  | string tag => exact absurd trivial infinite
  | cstring tag => exact absurd trivial infinite

/-- A tag that was read is read again from its written form exactly if its reference is not a
floating-point number beyond the finite ones. The written form of such a number is no tag. -/
theorem parse_text_iff (library : printer.ReadsBack) {s : String} (h : parse s = .ok tag) :
    (parse tag.text = .ok tag ↔ tag.FiniteReference)
      ∧ (¬ tag.FiniteReference → isTag tag.text = false) := by
  have typed := wellTyped_of_parse h
  refine ⟨⟨fun hread => ?_, parse_text library typed⟩, fun infinite => ?_⟩
  · by_contra infinite
    rw [parse_text_of_not_finite library typed infinite] at hread
    cases hread
  · rw [isTag, parse_text_of_not_finite library typed infinite]
    rfl

end Written

/-- A demand to differ from minus infinity, on four bytes in a slot of nine. -/
def notInfinite : Tag :=
  .scalar ⟨.float32, .little, 9, some ⟨.real (Binary64.infinity true), true⟩⟩

/-- A demand to differ from a text that is made of marks. -/
def notMarks : Tag := .cstring ⟨30, some ⟨"!:5=le!", true⟩⟩

/-- A demand to differ from one half, on four bytes in a slot of nine. -/
def notHalf : Tag := .scalar ⟨.float32, .big, 9, some ⟨.real ⟨0x3FE0000000000000⟩, true⟩⟩

/-- Marks in a text do not matter. A number that is too large is taken for infinite, and its written
form is no tag; one half is written and read. -/
theorem parse_text_marks :
    parse "cstring:030!=!:5=le!" = .ok notMarks
      ∧ parse (@text .shortest notMarks) = .ok notMarks
      ∧ @text .shortest notHalf = "float32:9!=0.5" ∧ parse "float32:9!=0.5" = .ok notHalf
      ∧ parse "float32le:009= -1e999!" = .ok notInfinite
      ∧ parse (@text .shortest notInfinite) ≠ .ok notInfinite
      ∧ isTag "float32le:9!=null" = false := by
  have library := RealPrinter.readsBack_shortest
  have hmarks : parse "cstring:030!=!:5=le!" = .ok notMarks := rfl
  have hhalf : @text .shortest notHalf = "float32:9!=0.5" := by decide +kernel
  have hparse : parse "float32le:009= -1e999!" = .ok notInfinite := rfl
  have htext : @text .shortest notInfinite = "float32le:9!=null" := by decide +kernel
  have hinfinite : ¬ notInfinite.FiniteReference := by
    change ¬ (Binary64.infinity true).isFinite = true
    decide +kernel
  obtain ⟨hiff, hnone⟩ := @parse_text_iff _ .shortest library _ hparse
  exact ⟨hmarks, (@parse_text_iff _ .shortest library _ hmarks).1.mpr trivial, hhalf,
    hhalf ▸ @parse_text _ .shortest library rfl rfl, hparse,
    fun hread => hinfinite (hiff.mp hread), htext ▸ hnone hinfinite⟩

end Tag

end ByteRecord
