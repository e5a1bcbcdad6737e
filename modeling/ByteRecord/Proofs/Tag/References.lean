import ByteRecord.Json.Shortest
import ByteRecord.Proofs.Decimal.Digits
import ByteRecord.Proofs.Decimal.Magnitude
import ByteRecord.Tag.Reference

/-!
# References that read back

A numeral is written with its point in one of three places, and each of the three texts is read as a
numeral of the same value. A finite floating-point number that is written with enough digits is
therefore read back as itself, and so is every 64-bit integer. `RealPrinter.ReadsBack` is all that is
relied on of a printer of floating-point numbers; the shortest numerals meet it.
-/

namespace ByteRecord

open DecimalLayout

namespace Reference

variable {s whole fraction rest : List Char} {c : Char} {isDigit : Char → Bool}

/-- A run of digits that a point does not follow has no fraction. -/
theorem significand?_whole (hne : whole ≠ []) (hwhole : ∀ c ∈ whole, isDigit c = true)
    (hrest : ∀ c ∈ rest.head?, isDigit c = false ∧ c ≠ '.') :
    significand? isDigit (whole ++ rest) = some (whole, [], rest) := by
  have hspan := span_append hwhole fun c hc => (hrest c hc).1
  have hempty : whole.isEmpty = false := List.isEmpty_eq_false_iff.mpr hne
  unfold significand?
  rw [hspan]
  dsimp only
  split
  · rename_i behind
    exact absurd rfl (hrest '.' rfl).2
  · rw [hempty, Bool.false_and, if_neg Bool.false_ne_true]

/-- A run of digits behind the point is the fraction. It may be empty, and so may the one before the
point, but not both. -/
theorem significand?_point (hne : whole ≠ [] ∨ fraction ≠ [])
    (hwhole : ∀ c ∈ whole, isDigit c = true) (hfraction : ∀ c ∈ fraction, isDigit c = true)
    (hpoint : isDigit '.' = false) (hrest : ∀ c ∈ rest.head?, isDigit c = false) :
    significand? isDigit (whole ++ '.' :: (fraction ++ rest))
      = some (whole, fraction, rest) := by
  have hspan : (whole ++ '.' :: (fraction ++ rest)).span isDigit
      = (whole, '.' :: (fraction ++ rest)) :=
    span_append hwhole fun c hc => by rwa [← Option.mem_some.mp hc]
  have hempty : ¬ (whole.isEmpty && fraction.isEmpty) = true := by
    rwa [Bool.and_eq_true, List.isEmpty_iff, List.isEmpty_iff, not_and_or]
  simp only [significand?, hspan, span_append hfraction hrest, if_neg hempty]

/-- The same with nothing behind the fraction. -/
theorem significand?_point_nil (hne : whole ≠ []) (hwhole : ∀ c ∈ whole, c.isDigit = true)
    (hfraction : ∀ c ∈ fraction, c.isDigit = true) :
    significand? Char.isDigit (whole ++ '.' :: fraction) = some (whole, fraction, []) := by
  have hpoint : significand? Char.isDigit (whole ++ '.' :: (fraction ++ []))
      = some (whole, fraction, []) :=
    significand?_point (Or.inl hne) hwhole hfraction rfl (by simp)
  rwa [List.append_nil] at hpoint

/-- The exponent behind its mark and its sign, which a plus may be. -/
theorem exponent?_signed (lower upper : Char) (exponent : Int) (count : Nat) :
    exponent? lower upper (lower :: (if exponent < 0 then '-' else '+')
      :: (zeros count ++ digits exponent.natAbs)) = some exponent := by
  have hdigits : allDigits (zeros count ++ digits exponent.natAbs) = true := by
    refine allDigits_iff.mpr ⟨by simp [digits_ne_nil], fun c hc => ?_⟩
    exact (List.mem_append.mp hc).elim isDigit_of_mem_zeros isDigit_of_mem_digits
  have hvalue : decimalNat (zeros count ++ digits exponent.natAbs) = exponent.natAbs := by
    rw [decimalNat_zeros_append, decimalNat_digits]
  by_cases hsign : exponent < 0
  · have hsize : -(exponent.natAbs : Int) = exponent := by omega
    simp only [exponent?, takeSign, hsign, hdigits, hvalue, hsize, ne_eq, not_true_eq_false,
      false_and, if_true, if_false]
  · have hsize : (exponent.natAbs : Int) = exponent := by omega
    simp only [exponent?, takeSign, hsign, hdigits, hvalue, hsize, ne_eq, not_true_eq_false,
      false_and, Bool.false_eq_true, if_true, if_false]

/-- A numeral is read as its digits, each place of the fraction taken off the exponent. -/
theorem decimalMagnitude?_eq {exponent : Int}
    (hsignificand : significand? Char.isDigit s = some (whole, fraction, rest))
    (hexponent : exponent? 'e' 'E' rest = some exponent) :
    decimalMagnitude? s
      = some (Decimal.magnitude ⟨decimalNat (whole ++ fraction), exponent - fraction.length⟩) := by
  rw [decimalMagnitude?, hsignificand]
  simp only [Option.bind_eq_bind, Option.bind_some, hexponent]
  rfl

/-- The point within the digits of a number or behind them, at least one of them before it. -/
theorem decimalMagnitude?_pointAfter (n : Nat) {count : Nat} (hcount : 0 < count) :
    decimalMagnitude? (pointAfter count (digits n))
      = some (Decimal.magnitude ⟨n, count - (digits n).length⟩) := by
  have hdigits : ∀ c ∈ digits n, c.isDigit = true := fun c hc => isDigit_of_mem_digits hc
  unfold pointAfter
  split
  · rename_i hle
    have hsignificand : significand? Char.isDigit
        (digits n ++ zeros (count - (digits n).length) ++ '.' :: zeros 1)
        = some (digits n ++ zeros (count - (digits n).length), zeros 1, []) := by
      refine significand?_point_nil (by simp [digits_ne_nil]) (fun c hc => ?_)
        (fun c hc => isDigit_of_mem_zeros hc)
      exact (List.mem_append.mp hc).elim (hdigits c) isDigit_of_mem_zeros
    have hexponent : (0 : Int) - ((zeros 1).length : Nat) + (1 : Nat)
        + ((count - (digits n).length : Nat) : Int) = count - (digits n).length := by
      have hone : (zeros 1).length = 1 := rfl
      omega
    have hvalue := decimalMagnitude?_eq hsignificand rfl
    rwa [decimalNat_append_zeros, decimalNat_append_zeros, decimalNat_digits,
      Decimal.magnitude_shift, Decimal.magnitude_shift, hexponent] at hvalue
  · rename_i hlt
    have hne : (digits n).take count ≠ [] := by
      rw [ne_eq, List.take_eq_nil_iff, not_or]
      exact ⟨by omega, digits_ne_nil n⟩
    have hfraction : ∀ c ∈ (digits n).drop count, c.isDigit = true :=
      fun c hc => hdigits c (List.mem_of_mem_drop hc)
    have hsignificand := significand?_point_nil hne
      (fun c hc => hdigits c (List.mem_of_mem_take hc)) hfraction
    have hexponent : (0 : Int) - ((digits n).drop count).length = count - (digits n).length := by
      rw [List.length_drop]
      omega
    rw [decimalMagnitude?_eq hsignificand rfl, List.take_append_drop, decimalNat_digits, hexponent]

/-- Zeros between the point and the digits of a number. -/
theorem decimalMagnitude?_zeros (n count : Nat) :
    decimalMagnitude? ('0' :: '.' :: zeros count ++ digits n)
      = some (Decimal.magnitude ⟨n, -(count : Int) - (digits n).length⟩) := by
  have hsignificand : significand? Char.isDigit (zeros 1 ++ '.' :: (zeros count ++ digits n))
      = some (zeros 1, zeros count ++ digits n, []) :=
    significand?_point_nil (List.cons_ne_nil _ _) (fun c hc => isDigit_of_mem_zeros hc)
      (fun c hc => (List.mem_append.mp hc).elim isDigit_of_mem_zeros isDigit_of_mem_digits)
  have hexponent : (0 : Int) - (zeros count ++ digits n).length
      = -(count : Int) - (digits n).length := by
    rw [List.length_append, zeros, List.length_replicate]
    omega
  have hvalue := decimalMagnitude?_eq hsignificand rfl
  rwa [decimalNat_zeros_append, decimalNat_zeros_append, decimalNat_digits, hexponent] at hvalue

/-- One digit of a number before the point, and an exponent. -/
theorem decimalMagnitude?_scientific (layout : DecimalLayout) (n : Nat) (exponent : Int) :
    decimalMagnitude? (layout.scientific exponent (digits n))
      = some (Decimal.magnitude ⟨n, exponent + 1 - (digits n).length⟩) := by
  have hdigits : ∀ c ∈ digits n, c.isDigit = true := fun c hc => isDigit_of_mem_digits hc
  have hvalue := decimalNat_digits n
  have hne := digits_ne_nil n
  have hexponent := exponent?_signed 'e' 'E' exponent
    (layout.exponentDigits - (digits exponent.natAbs).length)
  unfold scientific
  dsimp only
  rw [List.append_assoc, List.cons_append, List.cons_append]
  generalize hbehind : 'e' :: _ = behind at hexponent ⊢
  have hmark : ∀ c ∈ behind.head?, c.isDigit = false ∧ c ≠ '.' := fun c hc => by
    rw [← hbehind] at hc
    rw [← Option.mem_some.mp hc]
    decide
  generalize digits n = ds at hdigits hvalue hne ⊢
  -- A single digit has no point behind it.
  match ds with
  | [] => exact absurd rfl hne
  | [first] =>
    have hlength : exponent - ([] : List Char).length = exponent + 1 - [first].length := by
      simp only [List.length_nil, List.length_singleton]
      omega
    rw [decimalMagnitude?_eq (significand?_whole hne hdigits hmark) hexponent, List.append_nil,
      hvalue, hlength]
  | first :: second :: others =>
    have hlength : exponent - (second :: others).length
        = exponent + 1 - (first :: second :: others).length := by
      simp only [List.length_cons]
      omega
    obtain ⟨hfirst, hothers⟩ := List.forall_mem_cons.mp hdigits
    have hsignificand := significand?_point (Or.inl (List.cons_ne_nil first []))
      (List.forall_mem_singleton.mpr hfirst) hothers rfl fun c hc => (hmark c hc).1
    have hread := decimalMagnitude?_eq hsignificand hexponent
    rw [hlength] at hread
    rwa [← hvalue]

/-- A written numeral is read as a numeral of the same value. -/
theorem decimalMagnitude?_render (layout : DecimalLayout) (d : Decimal) :
    decimalMagnitude? (layout.render d) = some d.magnitude := by
  unfold render
  dsimp only
  split
  · split
    · rename_i hpoint
      rw [decimalMagnitude?_pointAfter _ (by omega)]
      have hexponent : ((((digits d.digits).length : Int) + d.exponent).toNat : Int)
          - (digits d.digits).length = d.exponent := by omega
      rw [hexponent]
    · rename_i hpoint
      have hexponent : -((-(((digits d.digits).length : Int) + d.exponent)).toNat : Int)
          - (digits d.digits).length = d.exponent := by omega
      rw [decimalMagnitude?_zeros, hexponent]
  · have hexponent : ((digits d.digits).length : Int) + d.exponent - 1 + 1
        - (digits d.digits).length = d.exponent := by omega
    rw [decimalMagnitude?_scientific, hexponent]

/-- Whether a character may stand in a written numeral. -/
def isNumeralChar (c : Char) : Bool := c.isDigit || c == '.' || c == 'e' || c == '+' || c == '-'

theorem isNumeralChar_of_isDigit (h : c.isDigit = true) : isNumeralChar c = true := by
  rw [isNumeralChar, h]
  rfl

theorem isNumeralChar_of_mem_digits {n : Nat} (h : c ∈ digits n) : isNumeralChar c = true :=
  isNumeralChar_of_isDigit (isDigit_of_mem_digits h)

theorem isNumeralChar_of_mem_zeros {count : Nat} (h : c ∈ zeros count) : isNumeralChar c = true :=
  isNumeralChar_of_isDigit (isDigit_of_mem_zeros h)

theorem isNumeralChar_of_mem_pointAfter {count n : Nat} (h : c ∈ pointAfter count (digits n)) :
    isNumeralChar c = true := by
  unfold pointAfter at h
  split at h
  · simp only [List.mem_append, List.mem_cons, List.not_mem_nil, or_false] at h
    obtain (hc | hc) | hc | hc := h
    · exact isNumeralChar_of_mem_digits hc
    · exact isNumeralChar_of_mem_zeros hc
    · rw [hc]
      rfl
    · rw [hc]
      rfl
  · simp only [List.mem_append, List.mem_cons] at h
    obtain hc | hc | hc := h
    · exact isNumeralChar_of_mem_digits (List.mem_of_mem_take hc)
    · rw [hc]
      rfl
    · exact isNumeralChar_of_mem_digits (List.mem_of_mem_drop hc)

theorem isNumeralChar_of_mem_scientific {layout : DecimalLayout} {exponent : Int} {n : Nat}
    (h : c ∈ layout.scientific exponent (digits n)) : isNumeralChar c = true := by
  unfold scientific at h
  simp only [List.mem_append, List.mem_cons] at h
  obtain (hc | hc | hc | hc) | hc := h
  · have hsignificand : c ∈ digits n ∨ c = '.' := by
      split at hc
      · rename_i first second rest hds
        rw [hds]
        simp only [List.mem_cons] at hc ⊢
        tauto
      · exact Or.inl hc
    obtain hdigit | hpoint := hsignificand
    · exact isNumeralChar_of_mem_digits hdigit
    · rw [hpoint]
      rfl
  · rw [hc]
    rfl
  · rw [hc]
    split <;> rfl
  · exact isNumeralChar_of_mem_zeros hc
  · exact isNumeralChar_of_mem_digits hc

theorem isNumeralChar_of_mem_render {layout : DecimalLayout} {d : Decimal}
    (h : c ∈ layout.render d) : isNumeralChar c = true := by
  unfold render at h
  dsimp only at h
  split at h
  · split at h
    · exact isNumeralChar_of_mem_pointAfter h
    · simp only [List.mem_append, List.mem_cons] at h
      obtain (hc | hc | hc) | hc := h
      · rw [hc]
        rfl
      · rw [hc]
        rfl
      · exact isNumeralChar_of_mem_zeros hc
      · exact isNumeralChar_of_mem_digits hc
  · exact isNumeralChar_of_mem_scientific h

/-- A text whose first character is a digit. -/
def LedByDigit (s : List Char) : Prop := ∃ c rest, s = c :: rest ∧ c.isDigit = true

theorem ledByDigit_digits (n : Nat) : LedByDigit (digits n) := by
  cases hdigits : digits n with
  | nil => exact absurd hdigits (digits_ne_nil n)
  | cons c rest => exact ⟨c, rest, rfl, isDigit_of_mem_digits (hdigits ▸ List.mem_cons_self)⟩

theorem ledByDigit_render (layout : DecimalLayout) (d : Decimal) :
    LedByDigit (layout.render d) := by
  obtain ⟨c, rest, hdigits, hc⟩ := ledByDigit_digits d.digits
  unfold render
  rw [hdigits]
  dsimp only
  split
  · split
    · rename_i hpoint
      unfold pointAfter
      split
      · exact ⟨c, _, rfl, hc⟩
      · obtain ⟨count, hcount⟩ := Nat.exists_eq_add_one.mpr (Int.lt_toNat.mpr hpoint)
        rw [hcount]
        exact ⟨c, _, rfl, hc⟩
    · exact ⟨'0', _, rfl, rfl⟩
  · cases rest with
    | nil => exact ⟨c, _, rfl, hc⟩
    | cons second others => exact ⟨c, _, rfl, hc⟩

/-- A sign is taken off a text that a digit leads. -/
theorem takeSign_signed (h : LedByDigit s) (negative : Bool) :
    takeSign ((if negative then ['-'] else []) ++ s) = (negative, s) := by
  obtain ⟨c, rest, rfl, hc⟩ := h
  cases negative with
  | true => rfl
  | false =>
    simp only [Bool.false_eq_true, if_false, List.nil_append]
    unfold takeSign
    split
    · rename_i hminus
      rw [(List.cons.inj hminus).1] at hc
      cases hc
    · rename_i hplus
      rw [(List.cons.inj hplus).1] at hc
      cases hc
    · rfl

/-- No white space stands in front of a text that a digit leads. -/
theorem dropWhile_isSpace_signed (h : LedByDigit s) (negative : Bool) :
    ((if negative then ['-'] else []) ++ s).dropWhile isSpace
      = (if negative then ['-'] else []) ++ s := by
  obtain ⟨c, rest, rfl, hc⟩ := h
  cases negative with
  | true => rfl
  | false =>
    have hspace : ¬ isSpace c = true := fun hspace => by
      simp only [isSpace, Bool.or_eq_true, beq_iff_eq] at hspace
      obtain ((((rfl | rfl) | rfl) | rfl) | rfl) | rfl := hspace <;> cases hc
    exact List.dropWhile_cons_of_neg hspace

/-- No mark of hexadecimal digits stands in a written numeral. -/
theorem afterHexMark?_eq_none (h : ∀ c ∈ s, isNumeralChar c = true) : afterHexMark? s = none := by
  unfold afterHexMark?
  split
  · rename_i mark rest
    have hmark := h mark (by simp)
    have hlower : mark ≠ 'x' := fun hx => by
      rw [hx] at hmark
      cases hmark
    have hupper : mark ≠ 'X' := fun hx => by
      rw [hx] at hmark
      cases hmark
    rw [beq_false_of_ne hlower, beq_false_of_ne hupper]
    rfl
  · rfl

/-- The names of special values start with letters. -/
theorem specialMagnitude?_eq_none (h : LedByDigit s) : specialMagnitude? s = none := by
  obtain ⟨c, rest, rfl, hc⟩ := h
  -- The names are compared in lower case, which changes no digit.
  have hlower : c.toLower = c := by
    refine dif_neg fun hupper => ?_
    have hletter : 65 ≤ c.toNat := UInt32.le_iff_toNat_le.mp hupper.1
    have hdigit : c.toNat ≤ 57 := (Char.isDigit_iff_toNat.mp hc).2
    omega
  have hi : c ≠ 'i' := fun hi => by
    rw [hi] at hc
    cases hc
  have hn : c ≠ 'n' := fun hn => by
    rw [hn] at hc
    cases hc
  unfold specialMagnitude?
  simp [hlower, hi, hn, hn.symm]

/-- A numeral behind its sign is read as the number nearest to it. -/
theorem real?_signed {magnitude : Nat} (head : LedByDigit s)
    (plain : ∀ c ∈ s, isNumeralChar c = true) (h : decimalMagnitude? s = some magnitude)
    (negative : Bool) :
    real? ((if negative then ['-'] else []) ++ s)
      = some (Binary64.ofMagnitude negative magnitude) := by
  unfold real?
  rw [dropWhile_isSpace_signed head, takeSign_signed head]
  dsimp only
  rw [afterHexMark?_eq_none plain]
  dsimp only
  rw [specialMagnitude?_eq_none head, h]
  rfl

/-- An integer is read back from its text. -/
theorem integer?_integerText (n : Int64) : integer? (Number.integerText n.toInt) = some n := by
  have hhead := ledByDigit_digits n.toInt.natAbs
  have hplain : ∀ c ∈ digits n.toInt.natAbs, isNumeralChar c = true :=
    fun c hc => isNumeralChar_of_mem_digits hc
  have htext : Number.integerText n.toInt
      = (if decide (n.toInt < 0) then ['-'] else []) ++ digits n.toInt.natAbs := by
    by_cases hsign : n.toInt < 0 <;> simp [Number.integerText, hsign]
  have hvalue : (if decide (n.toInt < 0) then -(n.toInt.natAbs : Int) else n.toInt.natAbs)
      = n.toInt := by
    by_cases hsign : n.toInt < 0
    · simp only [hsign, decide_true, if_true]
      omega
    · simp only [hsign, decide_false, Bool.false_eq_true, if_false]
      omega
  have hword : isSignedWord n.toInt = true := by
    have hlow := n.le_toInt
    have hhigh := n.toInt_lt
    have hbound : signedBound = 2 ^ 63 := rfl
    rw [isSignedWord, hbound, Bool.and_eq_true]
    exact ⟨decide_eq_true (by omega), decide_eq_true (by omega)⟩
  simp only [htext, integer?, dropWhile_isSpace_signed hhead, takeSign_signed hhead,
    afterHexMark?_eq_none hplain, allDigits_digits, decimalNat_digits, ofSigned?, hvalue, hword,
    if_true, Int64.ofInt_toInt]

end Reference

namespace RealPrinter

/-- What is relied on of a printer: the reader of references gives a finite number back from its
text, and any other number is written as null. -/
structure ReadsBack (printer : RealPrinter) : Prop where
  /-- A finite number is read back from its text. -/
  finite {x : Binary64} (h : x.isFinite = true) : Reference.real? (printer.text x) = some x
  /-- A number that is not finite is written as null. -/
  null {x : Binary64} (h : x.isFinite = false) : printer.text x = "null".toList

/-- The shortest numerals read back. -/
theorem readsBack_shortest : shortest.ReadsBack := by
  refine ⟨fun {x} h => ?_, fun {x} h => ?_⟩
  · have hdigits : (if x.isZero then ⟨0, 0⟩ else x.shortest).magnitude = x.magnitude := by
      split
      · rename_i hzero
        exact (of_decide_eq_true hzero).symm
      · exact Binary64.magnitude_shortest h
    have htext : shortest.text x = (if x.negative then ['-'] else [])
        ++ shortestLayout.render (if x.isZero then ⟨0, 0⟩ else x.shortest) :=
      if_neg (by rw [h]; decide)
    rw [htext, Reference.real?_signed (Reference.ledByDigit_render _ _)
      (fun c hc => Reference.isNumeralChar_of_mem_render hc)
      (Reference.decimalMagnitude?_render _ _), hdigits, Binary64.ofMagnitude_eta]
  · exact if_pos (by rw [h]; rfl)

end RealPrinter

end ByteRecord
