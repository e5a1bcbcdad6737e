import ByteRecord.Length.Grammar
import ByteRecord.Proofs.Decimal.Digits
import ByteRecord.Proofs.Success

/-!
# How lengths are read

A text is cut in front of its operators. The cuts make it up again, each but the first starts with an
operator, and none holds an operator behind its start, so a text that is put together from operators and
texts without operators is cut into these. `Length.WellFormed` is what a length that was read comes to:
counts are not negative, distances from the end are, and names hold neither white space, which is taken
out of a text before it is read, nor operators.
-/

namespace ByteRecord

open DecimalLayout

namespace Length

/-- A name of a field as it is read from a length. -/
structure IsName (name : List Char) : Prop where
  /-- It is not empty. -/
  nonempty : name ≠ []
  /-- It holds no white space. -/
  unspaced : ∀ c ∈ name, isSpace c = false
  /-- It holds no operator. -/
  operatorFree : ∀ c ∈ name, isOperator c = false
  /-- It is no run of digits. -/
  notDigits : allDigits name = false

end Length

/-- An operand as it is read: a count that is not negative, or a name. -/
def Operand.WellFormed : Operand → Prop
  | count n => ¬ n < 0
  | field name => Length.IsName name.toList

namespace Length

/-- A length as it is read. -/
def WellFormed : Length → Prop
  | literal n => ¬ n < 0
  | fromEnd n => n < 0
  | remainder => True
  | field name => IsName name.toList
  | expression terms => terms ≠ [] ∧ ∀ term ∈ terms, term.operand.WellFormed

variable {c : Char} {s text : List Char}

theorem isOperator_sign (op : Operator) : isOperator op.sign = true := by
  cases op <;> rfl

theorem ofSign?_sign (op : Operator) : Operator.ofSign? op.sign = some op := by
  cases op <;> rfl

/-- The sign of an operator is taken off what follows it. -/
theorem takeOperator_sign (op : Operator) (s : List Char) :
    takeOperator (op.sign :: s) = (op, s) := by
  simp only [takeOperator, ofSign?_sign]

/-- Where no operator is, nothing is taken off. -/
theorem takeOperator_of_operatorFree (hfree : ∀ c ∈ s, isOperator c = false) :
    takeOperator s = (.add, s) := by
  cases s with
  | nil => rfl
  | cons c rest =>
    have hc : Operator.ofSign? c = none :=
      Option.not_isSome_iff_eq_none.mp (Bool.eq_false_iff.mp (hfree c List.mem_cons_self))
    simp only [takeOperator, hc]

/-- The operators are known by their signs. -/
theorem isOperator_iff : isOperator c = true ↔ ∃ op : Operator, op.sign = c := by
  constructor
  · intro h
    obtain ⟨op, hop⟩ := Option.isSome_iff_exists.mp h
    refine ⟨op, ?_⟩
    unfold Operator.ofSign? at hop
    split_ifs at hop with hadd hsubtract hmultiply hdivide
    · exact Option.some.inj hop ▸ hadd.symm
    · exact Option.some.inj hop ▸ hsubtract.symm
    · exact Option.some.inj hop ▸ hmultiply.symm
    · exact Option.some.inj hop ▸ hdivide.symm
  · rintro ⟨op, rfl⟩
    exact isOperator_sign op

/-- No digit is an operator or white space. -/
theorem not_isOperator_of_isDigit (h : c.isDigit = true) :
    isOperator c = false ∧ isSpace c = false := by
  have hne : ∀ other : Char, other.isDigit = false → c ≠ other := fun other hother hc => by
    rw [hc, hother] at h
    cases h
  have hbeq : ∀ other : Char, other.isDigit = false → (c == other) = false :=
    fun other hother => beq_false_of_ne (hne other hother)
  constructor
  · simp [isOperator, Operator.ofSign?, hne '+' rfl, hne '-' rfl, hne '*' rfl, hne '/' rfl]
  · simp only [isSpace, hbeq ' ' rfl, hbeq '\t' rfl, hbeq '\n' rfl, hbeq '\x0b' rfl,
      hbeq '\x0c' rfl, hbeq '\r' rfl, Bool.or_self]

/-- A text with an operator is no run of digits. -/
theorem allDigits_eq_false (hc : c ∈ s) (h : isOperator c = true) : allDigits s = false := by
  rw [Bool.eq_false_iff]
  intro hdigits
  have hdigit := (allDigits_iff.mp hdigits).2 c hc
  rw [(not_isOperator_of_isDigit hdigit).1] at h
  cases h

/-- A run of digits is read, unless its number is beyond the signed 64-bit ones. -/
theorem readCount_of_digits (text : List Char) (run : allDigits s = true) :
    readCount text s
      = if decimalNat s ≤ greatestSigned then .ok (Int64.ofNat (decimalNat s))
        else .error (.overflow (String.ofList text)) := by
  rw [readCount, boundedNat?_eq (by decide) (allDigits_iff.mp run).2]
  by_cases hfits : decimalNat s ≤ greatestSigned
  · rw [if_pos hfits, if_pos hfits]
  · rw [if_neg hfits, if_neg hfits]

/-- A run of digits is read exactly if its number is a signed 64-bit one. -/
theorem readCount_eq_ok_iff (run : allDigits s = true) {n : Int64} :
    readCount text s = .ok n ↔ decimalNat s < 2 ^ 63 ∧ Int64.ofNat (decimalNat s) = n := by
  have hword : greatestSigned = 2 ^ 63 - 1 := rfl
  rw [readCount_of_digits text run]
  by_cases hbound : decimalNat s ≤ greatestSigned
  · rw [if_pos hbound]
    exact ⟨fun h => ⟨by omega, Except.ok.inj h⟩, fun h => congrArg Except.ok h.2⟩
  · rw [if_neg hbound]
    refine iff_of_false (fun h => ?_) fun h => hbound (by omega)
    cases h

/-- The cuts of a text that is not empty: the first one starts where the text does. -/
theorem exists_segments_cons (c : Char) (rest : List Char) :
    ∃ segment others, segments (c :: rest) = (c :: segment) :: others := by
  rw [segments]
  split
  · exact ⟨[], [], rfl⟩
  · rename_i segment others hrest
    split
    · exact ⟨[], segment :: others, rfl⟩
    · exact ⟨segment, others, rfl⟩

/-- What the cuts of a text are: none is empty, and operators occur at their starts only. -/
theorem segments_spec {segment : List Char} (h : segment ∈ segments text) :
    segment ≠ [] ∧ ∀ c ∈ segment.tail, isOperator c = false := by
  induction text generalizing segment with
  | nil => cases h
  | cons c rest ih =>
    have hsingle : [c] ≠ [] ∧ ∀ d ∈ [c].tail, isOperator d = false :=
      ⟨List.cons_ne_nil _ _, List.forall_mem_nil _⟩
    rw [segments] at h
    split at h
    · rw [List.mem_singleton.mp h]
      exact hsingle
    · rename_i first others hsegments
      rw [hsegments] at ih
      split at h
      · obtain rfl | hother := List.mem_cons.mp h
        · exact hsingle
        · exact ih hother
      · rename_i hstart
        obtain rfl | hother := List.mem_cons.mp h
        · obtain ⟨hne, hfree⟩ := ih List.mem_cons_self
          refine ⟨List.cons_ne_nil _ _, ?_⟩
          rw [List.tail_cons]
          cases first with
          | nil => exact absurd rfl hne
          | cons d more =>
            rw [List.head?_cons, Option.any_some, Bool.not_eq_true] at hstart
            exact List.forall_mem_cons.mpr ⟨hstart, hfree⟩
        · exact ih (List.mem_cons_of_mem _ hother)

/-- A text is cut behind a part that holds no operator except at its start, if an operator follows. -/
theorem segments_append (hs : s ≠ []) (hfree : ∀ c ∈ s.tail, isOperator c = false)
    (htext : ∀ c ∈ text.head?, isOperator c = true) :
    segments (s ++ text) = s :: segments text := by
  induction s with
  | nil => exact absurd rfl hs
  | cons c rest ih =>
    rw [List.tail_cons] at hfree
    rw [List.cons_append, segments]
    cases rest with
    | nil =>
      rw [List.nil_append]
      cases text with
      | nil => rfl
      | cons d more =>
        obtain ⟨segment, others, hmore⟩ := exists_segments_cons d more
        have hd : isOperator d = true := htext d rfl
        rw [hmore]
        simp only [List.head?_cons, Option.any_some, hd, if_true]
    | cons d more =>
      obtain ⟨hd, hrest⟩ := List.forall_mem_cons.mp hfree
      rw [ih (List.cons_ne_nil d more) hrest]
      simp only [List.head?_cons, Option.any_some, hd, Bool.false_eq_true, if_false]

/-- The cuts of a text make it up. -/
theorem flatten_segments (text : List Char) : (segments text).flatten = text := by
  induction text with
  | nil => rfl
  | cons c rest ih =>
    rw [segments]
    split
    · rename_i hrest
      rw [hrest] at ih
      rw [← ih]
      rfl
    · rename_i segment others hrest
      rw [hrest] at ih
      split
      · rw [List.flatten_cons, ih]
        rfl
      · rw [List.flatten_cons, List.cons_append, ← List.flatten_cons, ih]

/-- A text is cut in front of operators only. -/
theorem isOperator_head_of_segments {first : List Char} {others : List (List Char)}
    (h : segments text = first :: others) :
    ∀ piece ∈ others, ∀ c ∈ piece.head?, isOperator c = true := by
  induction text generalizing first others with
  | nil => cases h
  | cons c rest ih =>
    rw [segments] at h
    split at h
    · cases h
      exact List.forall_mem_nil _
    · rename_i segment more hrest
      have hlater := ih hrest
      split at h
      · rename_i hstart
        cases h
        refine List.forall_mem_cons.mpr ⟨fun d hd => ?_, hlater⟩
        rwa [Option.mem_def.mp hd, Option.any_some] at hstart
      · cases h
        exact hlater

/-- A cut other than the first one is an operator and a text without operators. -/
theorem exists_sign_of_segments {first : List Char} {others : List (List Char)}
    (h : segments text = first :: others) :
    ∀ piece ∈ others, ∃ (op : Operator) (chars : List Char),
      piece = op.sign :: chars ∧ ∀ c ∈ chars, isOperator c = false := by
  intro piece hpiece
  have hstart := isOperator_head_of_segments h piece hpiece
  obtain ⟨hne, hfree⟩ := segments_spec (h ▸ List.mem_cons_of_mem _ hpiece)
  cases piece with
  | nil => exact absurd rfl hne
  | cons c chars =>
    obtain ⟨op, rfl⟩ := isOperator_iff.mp (hstart c rfl)
    exact ⟨op, chars, rfl, hfree⟩

/-- A run of digits is read as a count. -/
theorem readChars_digits (hdigits : allDigits text = true) :
    readChars text = (readCount text text).map literal := by
  obtain ⟨hne, -⟩ := allDigits_iff.mp hdigits
  have hstar : text ≠ ['*'] := fun hstar => by
    rw [hstar] at hdigits
    cases hdigits
  rw [readChars, if_neg (fun hempty => hne (List.isEmpty_iff.mp hempty)), if_neg hstar,
    if_pos hdigits]

/-- A text with an operator is cut and read term by term, unless it is a star. -/
theorem readChars_of_isOperator (hoperator : ∃ c ∈ text, isOperator c = true)
    (hstar : text ≠ ['*']) :
    readChars text = ((segments text).mapM (readTerm text)).map expression := by
  obtain ⟨c, hc, hop⟩ := hoperator
  have hempty : ¬ text.isEmpty = true := fun hempty => by
    rw [List.isEmpty_iff.mp hempty] at hc
    cases hc
  have hdigits : ¬ allDigits text = true := by
    rw [allDigits_eq_false hc hop]
    decide
  rw [readChars, if_neg hempty, if_neg hstar, if_neg hdigits,
    if_pos (List.any_eq_true.mpr ⟨c, hc, hop⟩)]

/-- A text without operators that is no run of digits is read as a field. -/
theorem readChars_of_operatorFree (hne : text ≠ []) (hfree : ∀ c ∈ text, isOperator c = false)
    (hdigits : allDigits text = false) :
    readChars text = .ok (field (String.ofList text)) := by
  have hstar : text ≠ ['*'] := fun hstar => by
    have hfree := hfree '*' (by rw [hstar]; exact List.mem_cons_self)
    cases hfree
  have hany : ¬ text.any isOperator = true := fun hany => by
    obtain ⟨c, hc, hop⟩ := List.any_eq_true.mp hany
    rw [hfree c hc] at hop
    cases hop
  rw [readChars, if_neg (fun hempty => hne (List.isEmpty_iff.mp hempty)), if_neg hstar,
    if_neg (by rw [hdigits]; decide), if_neg hany]

end Length

end ByteRecord
