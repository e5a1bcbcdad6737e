import ByteRecord.Proofs.Tag.References

/-!
# Numbers that references spell

Which texts are numbers, told without reading them: an optional sign in front of digits, of a
significand with an optional exponent, or of the name of a special value, and white space in front
of all. The readers of references accept exactly these texts and give the number that they spell. A
fraction spells the quotient of two natural numbers, which is rounded once, beyond the range to
infinity; the exponents that are settled without a quotient are settled as it would settle them.
-/

namespace ByteRecord

namespace Reference

/-- A sign, which may be left out. -/
inductive SpellsSign : List Char → Bool → Prop
  /-- No sign. -/
  | none : SpellsSign [] false
  /-- A plus. -/
  | plus : SpellsSign ['+'] false
  /-- A minus. -/
  | minus : SpellsSign ['-'] true

/-- The integer of the given sign and size. -/
def signed (negative : Bool) (size : Nat) : Int := if negative then -(size : Int) else size

/-- An integer in front of which white space may stand, if it is decimal. -/
inductive SpellsInteger : List Char → Int → Prop
  /-- Decimal digits. -/
  | decimal {blank sign digits : List Char} {negative : Bool}
      (space : ∀ c ∈ blank, isSpace c = true) (mark : SpellsSign sign negative)
      (run : allDigits digits = true) :
      SpellsInteger (blank ++ (sign ++ digits)) (signed negative (decimalNat digits))
  /-- Hexadecimal digits behind their mark. -/
  | hexadecimal {sign digits : List Char} {negative : Bool} {x : Char}
      (mark : SpellsSign sign negative) (hex : x = 'x' ∨ x = 'X') (nonempty : digits ≠ [])
      (run : ∀ c ∈ digits, isHexDigit c = true) :
      SpellsInteger (sign ++ '0' :: x :: digits) (signed negative (hexNat digits))

/-- Digits with an optional point, and those before and behind it. There is at least one. -/
inductive SpellsSignificand (isDigit : Char → Bool) :
    List Char → List Char → List Char → Prop
  /-- Digits without a point. -/
  | whole {whole : List Char} (nonempty : whole ≠ []) (run : ∀ c ∈ whole, isDigit c = true) :
      SpellsSignificand isDigit whole whole []
  /-- Digits with a point. -/
  | point {whole fraction : List Char} (nonempty : whole ≠ [] ∨ fraction ≠ [])
      (before : ∀ c ∈ whole, isDigit c = true) (behind : ∀ c ∈ fraction, isDigit c = true) :
      SpellsSignificand isDigit (whole ++ '.' :: fraction) whole fraction

/-- An exponent behind one of two marks, which may be left out. -/
inductive SpellsExponent (lower upper : Char) : List Char → Int → Prop
  /-- No exponent. -/
  | none : SpellsExponent lower upper [] 0
  /-- Decimal digits behind the mark and a sign. -/
  | some {mark : Char} {sign digits : List Char} {negative : Bool}
      (exponent : mark = lower ∨ mark = upper) (negates : SpellsSign sign negative)
      (run : allDigits digits = true) :
      SpellsExponent lower upper (mark :: (sign ++ digits)) (signed negative (decimalNat digits))

/-- The 64-bit magnitude nearest to so many times a power of the base, infinity beyond the range. -/
def scaledMagnitude (base digits : Nat) (exponent : Int) : Nat :=
  Binary64.format.nearest (digits * base ^ exponent.toNat * Binary64.format.one)
    (base ^ (-exponent).toNat)

/-- A fraction in digits of the given kind and value, each place behind the point so many powers of
the base, with an exponent behind one of two marks. -/
inductive SpellsFraction (isDigit : Char → Bool) (value : List Char → Nat) (lower upper : Char)
    (base places : Nat) : List Char → Nat → Prop
  /-- A significand and its exponent. -/
  | mk {significand power whole fraction : List Char} {exponent : Int}
      (digits : SpellsSignificand isDigit significand whole fraction)
      (scale : SpellsExponent lower upper power exponent) :
      SpellsFraction isDigit value lower upper base places (significand ++ power)
        (scaledMagnitude base (value (whole ++ fraction)) (exponent - places * fraction.length))

/-- A decimal fraction. -/
abbrev SpellsDecimal : List Char → Nat → Prop :=
  SpellsFraction Char.isDigit decimalNat 'e' 'E' 10 1

/-- A hexadecimal fraction, whose exponent counts powers of two. -/
abbrev SpellsHexadecimal : List Char → Nat → Prop := SpellsFraction isHexDigit hexNat 'p' 'P' 2 4

/-- The name of a special value, in letters of either case. -/
inductive SpellsSpecial : List Char → Nat → Prop
  /-- Infinity. -/
  | infinity {name : List Char}
      (letters : name.map Char.toLower = "inf".toList ∨ name.map Char.toLower = "infinity".toList) :
      SpellsSpecial name Binary64.format.infinity
  /-- A NaN. -/
  | nan {name : List Char} (letters : name.map Char.toLower = "nan".toList) :
      SpellsSpecial name Binary64.format.quietNaN
  /-- A NaN with letters, digits and underscores in parentheses. -/
  | nanWith {name chars : List Char} (letters : name.map Char.toLower = "nan".toList)
      (payload : ∀ c ∈ chars, isNaNChar c = true) :
      SpellsSpecial (name ++ '(' :: (chars ++ [')'])) Binary64.format.quietNaN

/-- A floating-point number without a sign. -/
inductive SpellsMagnitude : List Char → Nat → Prop
  /-- A decimal fraction. -/
  | decimal {body : List Char} {magnitude : Nat} (digits : SpellsDecimal body magnitude) :
      SpellsMagnitude body magnitude
  /-- A hexadecimal fraction behind its mark. -/
  | hexadecimal {body : List Char} {magnitude : Nat} {x : Char} (hex : x = 'x' ∨ x = 'X')
      (digits : SpellsHexadecimal body magnitude) : SpellsMagnitude ('0' :: x :: body) magnitude
  /-- The name of a special value. -/
  | special {body : List Char} {magnitude : Nat} (name : SpellsSpecial body magnitude) :
      SpellsMagnitude body magnitude

/-- A floating-point number in front of which white space may stand. -/
inductive SpellsReal : List Char → Binary64 → Prop
  /-- A magnitude behind its sign. -/
  | mk {blank sign body : List Char} {negative : Bool} {magnitude : Nat}
      (space : ∀ c ∈ blank, isSpace c = true) (mark : SpellsSign sign negative)
      (size : SpellsMagnitude body magnitude) :
      SpellsReal (blank ++ (sign ++ body)) (Binary64.ofMagnitude negative magnitude)

/-- Neither white space nor a sign stands in front of the text. -/
def Bare (s : List Char) : Prop := ∀ c ∈ s.head?, isSpace c = false ∧ c ≠ '-' ∧ c ≠ '+'

variable {s sign blank digits whole fraction rest : List Char} {negative : Bool} {c : Char}
  {isDigit : Char → Bool}

/-- White space and signs come before all other characters of numbers. -/
theorem bare_cons (h : '-'.toNat < c.toNat) : Bare (c :: rest) := by
  intro other hother
  rw [← Option.mem_some.mp hother]
  refine ⟨?_, ?_, ?_⟩
  · rw [Bool.eq_false_iff]
    intro hspace
    simp only [isSpace, Bool.or_eq_true, beq_iff_eq] at hspace
    obtain ((((rfl | rfl) | rfl) | rfl) | rfl) | rfl := hspace <;> exact absurd h (by decide)
  · rintro rfl
    exact absurd h (by decide)
  · rintro rfl
    exact absurd h (by decide)

theorem bare_of_isDigit (h : c.isDigit = true) : Bare (c :: rest) :=
  bare_cons (Nat.lt_of_lt_of_le (by decide) (Char.isDigit_iff_toNat.mp h).1)

theorem bare_of_allDigits (h : allDigits digits = true) : Bare digits := by
  obtain ⟨hne, hdigits⟩ := allDigits_iff.mp h
  cases digits with
  | nil => exact absurd rfl hne
  | cons c rest => exact bare_of_isDigit (hdigits c List.mem_cons_self)

/-- A text is its sign and what follows. -/
theorem exists_sign (s : List Char) :
    ∃ sign, SpellsSign sign (takeSign s).1 ∧ s = sign ++ (takeSign s).2 := by
  unfold takeSign
  split
  · exact ⟨['-'], .minus, rfl⟩
  · exact ⟨['+'], .plus, rfl⟩
  · exact ⟨[], .none, rfl⟩

/-- A sign is taken off a text that has no other one. -/
theorem SpellsSign.takeSign_append (h : SpellsSign sign negative) (bare : Bare rest) :
    takeSign (sign ++ rest) = (negative, rest) := by
  cases h with
  | plus => rfl
  | minus => rfl
  | none =>
    rw [List.nil_append]
    unfold takeSign
    split
    · exact absurd rfl (bare '-' rfl).2.1
    · exact absurd rfl (bare '+' rfl).2.2
    · rfl

/-- A text is the white space in front of it and what follows. -/
theorem exists_blank (s : List Char) :
    ∃ blank, (∀ c ∈ blank, isSpace c = true) ∧ s = blank ++ s.dropWhile isSpace := by
  refine ⟨s.takeWhile isSpace, fun c hc => ?_, List.takeWhile_append_dropWhile.symm⟩
  exact List.all_eq_true.mp List.all_takeWhile c hc

/-- White space is taken off a text that has no other in front. -/
theorem dropWhile_isSpace_append (space : ∀ c ∈ blank, isSpace c = true)
    (mark : SpellsSign sign negative) (bare : Bare rest) :
    (blank ++ (sign ++ rest)).dropWhile isSpace = sign ++ rest := by
  rw [List.dropWhile_append_of_pos space]
  cases mark with
  | plus => rfl
  | minus => rfl
  | none =>
    cases rest with
    | nil => rfl
    | cons c rest =>
      exact List.dropWhile_cons_of_neg (Bool.eq_false_iff.mp (bare c rfl).1)

/-- The mark of hexadecimal digits is a zero and an X of either case. -/
theorem afterHexMark?_eq_some_iff :
    afterHexMark? s = some rest ↔ ∃ x, (x = 'x' ∨ x = 'X') ∧ s = '0' :: x :: rest := by
  constructor
  · intro h
    unfold afterHexMark? at h
    split at h
    · rename_i x behind
      split at h
      · rename_i hx
        rw [Bool.or_eq_true, beq_iff_eq, beq_iff_eq] at hx
        exact ⟨x, hx, by rw [Option.some.inj h]⟩
      · cases h
    · cases h
  · rintro ⟨x, rfl | rfl, rfl⟩ <;> rfl

/-- Where no X occurs there is no mark of hexadecimal digits. -/
theorem afterHexMark?_eq_none_of_notMem (lower : 'x' ∉ s) (upper : 'X' ∉ s) :
    afterHexMark? s = none := by
  cases h : afterHexMark? s with
  | none => rfl
  | some rest =>
    obtain ⟨x, rfl | rfl, rfl⟩ := afterHexMark?_eq_some_iff.mp h
    · exact absurd (by simp) lower
    · exact absurd (by simp) upper

/-- An integer of 64 bits is one within the signed words. -/
theorem ofSigned?_eq_some_iff {size : Nat} {n : Int64} :
    ofSigned? negative size = some n ↔ signed negative size = n.toInt := by
  have hlow := n.le_toInt
  have hhigh := n.toInt_lt
  have hbound : signedBound = 2 ^ 63 := rfl
  rw [ofSigned?, ← signed]
  constructor
  · intro h
    split at h
    · rename_i hword
      rw [isSignedWord, hbound, Bool.and_eq_true, decide_eq_true_eq, decide_eq_true_eq] at hword
      rw [← Option.some.inj h, Int64.toInt_ofInt_of_le (by omega) (by omega)]
    · cases h
  · intro h
    have hword : isSignedWord n.toInt = true := by
      rw [isSignedWord, hbound, Bool.and_eq_true]
      exact ⟨decide_eq_true (by omega), decide_eq_true (by omega)⟩
    rw [h, if_pos hword, Int64.ofInt_toInt]

/-- Nothing but white space, signs and digits occurs in the text of a decimal integer. -/
theorem notMem_decimal {x : Char} (space : isSpace x = false) (sign : x ≠ '-' ∧ x ≠ '+')
    (digit : x.isDigit = false) (hblank : ∀ c ∈ blank, isSpace c = true)
    (mark : SpellsSign s negative) (run : allDigits digits = true) :
    x ∉ blank ++ (s ++ digits) := by
  intro hmem
  obtain hmem | hmem := List.mem_append.mp hmem
  · rw [hblank x hmem] at space
    cases space
  obtain hmem | hmem := List.mem_append.mp hmem
  · cases mark with
    | none => cases hmem
    | plus => exact sign.2 (List.mem_singleton.mp hmem)
    | minus => exact sign.1 (List.mem_singleton.mp hmem)
  · rw [(allDigits_iff.mp run).2 x hmem] at digit
    cases digit

/-- An integer is read exactly from the texts that spell it. -/
theorem integer?_eq_some_iff {n : Int64} : integer? s = some n ↔ SpellsInteger s n.toInt := by
  constructor
  · intro h
    obtain ⟨sign, hsign, hs⟩ := exists_sign s
    obtain ⟨blank, hblank, hspace⟩ := exists_blank s
    obtain ⟨inner, hinner, hrest⟩ := exists_sign (s.dropWhile isSpace)
    unfold integer? at h
    dsimp only at h
    split at h
    · rename_i c digits hmark
      obtain ⟨x, hx, hbody⟩ := afterHexMark?_eq_some_iff.mp hmark
      split at h
      · rename_i hdigits
        rw [hs, hbody, ← ofSigned?_eq_some_iff.mp h]
        exact .hexadecimal hsign hx (List.cons_ne_nil c digits) (List.all_eq_true.mp hdigits)
      · cases h
    · split at h
      · rename_i hdigits
        rw [hspace, hrest, ← ofSigned?_eq_some_iff.mp h]
        exact .decimal hblank hinner hdigits
      · cases h
  · intro h
    generalize hvalue : n.toInt = value at h
    cases h with
    | decimal hblank mark run =>
      rename_i blank sign digits negative
      have hbare := bare_of_allDigits run
      have hread :
          takeSign ((blank ++ (sign ++ digits)).dropWhile isSpace) = (negative, digits) := by
        rw [dropWhile_isSpace_append hblank mark hbare, mark.takeSign_append hbare]
      have hmark : afterHexMark? (takeSign (blank ++ (sign ++ digits))).2 = none := by
        obtain ⟨front, -, hfront⟩ := exists_sign (blank ++ (sign ++ digits))
        refine afterHexMark?_eq_none_of_notMem (fun hmem => ?_) (fun hmem => ?_)
        · refine notMem_decimal (x := 'x') rfl (by decide) rfl hblank mark run ?_
          rw [hfront]
          exact List.mem_append_right _ hmem
        · refine notMem_decimal (x := 'X') rfl (by decide) rfl hblank mark run ?_
          rw [hfront]
          exact List.mem_append_right _ hmem
      have hsize := ofSigned?_eq_some_iff.mpr hvalue.symm
      simp only [integer?, hmark, hread, run, hsize, if_true]
    | hexadecimal mark hex nonempty run =>
      rename_i sign digits negative x
      have hread : takeSign (sign ++ '0' :: x :: digits) = (negative, '0' :: x :: digits) :=
        mark.takeSign_append (bare_of_isDigit rfl)
      have hmark : afterHexMark? ('0' :: x :: digits) = some digits :=
        afterHexMark?_eq_some_iff.mpr ⟨x, hex, rfl⟩
      have hsize := ofSigned?_eq_some_iff.mpr hvalue.symm
      cases digits with
      | nil => exact absurd rfl nonempty
      | cons c digits =>
        simp only [integer?, hread, hmark, List.all_eq_true.mpr run, hsize, if_true]

/-- A text that starts with a significand is that significand and what follows. -/
theorem exists_significand (h : significand? isDigit s = some (whole, fraction, rest)) :
    ∃ front, SpellsSignificand isDigit front whole fraction ∧ s = front ++ rest := by
  have htaken : ∀ {t : List Char}, ∀ c ∈ t.takeWhile isDigit, isDigit c = true :=
    fun c hc => List.all_eq_true.mp List.all_takeWhile c hc
  have hsplit := List.takeWhile_append_dropWhile (p := isDigit) (l := s)
  unfold significand? at h
  simp only [List.span_eq_takeWhile_dropWhile] at h
  generalize hfront : s.takeWhile isDigit = front at h hsplit
  have hdigits : ∀ c ∈ front, isDigit c = true := hfront ▸ htaken
  split at h
  · rename_i behind hbehind
    split at h
    · cases h
    · rename_i hsome
      injection h with h
      injection h with hwhole h
      injection h with hfraction hrest
      subst hwhole hfraction hrest
      refine ⟨_, .point ?_ hdigits htaken, ?_⟩
      · rwa [Bool.and_eq_true, List.isEmpty_iff, List.isEmpty_iff, not_and_or] at hsome
      · rw [List.append_assoc, List.cons_append, List.takeWhile_append_dropWhile, ← hbehind,
          hsplit]
  · split at h
    · cases h
    · rename_i hsome
      injection h with h
      injection h with hwhole h
      injection h with hfraction hrest
      subst hwhole hfraction hrest
      refine ⟨_, .whole ?_ hdigits, hsplit.symm⟩
      rwa [List.isEmpty_nil, Bool.and_true, List.isEmpty_iff] at hsome

/-- A significand is taken off the text that it starts. -/
theorem SpellsSignificand.significand?_append {front : List Char}
    (h : SpellsSignificand isDigit front whole fraction) (point : isDigit '.' = false)
    (ends : ∀ c ∈ rest.head?, isDigit c = false ∧ c ≠ '.') :
    significand? isDigit (front ++ rest) = some (whole, fraction, rest) := by
  cases h with
  | whole nonempty run => exact significand?_whole nonempty run ends
  | point nonempty before behind =>
    rw [List.append_assoc]
    exact significand?_point nonempty before behind point fun c hc => (ends c hc).1

/-- An exponent is read exactly from the texts that spell it. -/
theorem exponent?_eq_some_iff {lower upper : Char} {exponent : Int} :
    exponent? lower upper s = some exponent ↔ SpellsExponent lower upper s exponent := by
  constructor
  · intro h
    unfold exponent? at h
    split at h
    · rw [← Option.some.inj h]
      exact .none
    · rename_i mark rest
      obtain ⟨sign, hsign, hrest⟩ := exists_sign rest
      split at h
      · cases h
      · rename_i hmark
        dsimp only at h
        split at h
        · rename_i hdigits
          rw [hrest, ← Option.some.inj h]
          exact .some (by tauto) hsign hdigits
        · cases h
  · intro h
    cases h with
    | none => rfl
    | some mark negates run =>
      have hmark : ¬ (_ ≠ lower ∧ _ ≠ upper) := fun hother => mark.elim hother.1 hother.2
      simp only [exponent?, negates.takeSign_append (bare_of_allDigits run), run, if_neg hmark,
        if_true]
      rfl

/-- An exponent starts with one of its marks. -/
theorem SpellsExponent.ends {lower upper : Char} {exponent : Int}
    (h : SpellsExponent lower upper s exponent) (hlower : isDigit lower = false ∧ lower ≠ '.')
    (hupper : isDigit upper = false ∧ upper ≠ '.') :
    ∀ c ∈ s.head?, isDigit c = false ∧ c ≠ '.' := by
  intro c hc
  cases h with
  | none => cases hc
  | some mark =>
    rw [← Option.mem_some.mp hc]
    rcases mark with rfl | rfl
    · exact hlower
    · exact hupper

/-- So many halvings leave less than half of the least positive number. -/
theorem two_mul_lt_of_farBelow {significand : Nat} {exponent : Int}
    (h : exponent + significand.log2 + 1 < -(farBinaryExponent : Int)) :
    2 * (significand * 2 ^ exponent.toNat * Binary64.format.one) < 2 ^ (-exponent).toNat := by
  rw [farBinaryExponent] at h
  obtain ⟨places, hplaces, hexponent⟩ : ∃ places, 1200 < places
      ∧ (-exponent).toNat = (significand.log2 + 1) + places :=
    ⟨(-exponent).toNat - (significand.log2 + 1), by omega, by omega⟩
  have hwhole : exponent.toNat = 0 := by omega
  have hunits : Binary64.format.unitExponent + 1 ≤ places := by
    rw [Binary64.unitExponent_eq]
    omega
  rw [hwhole, hexponent, FloatFormat.one_eq, pow_zero, Nat.mul_one]
  calc
    2 * (significand * 2 ^ Binary64.format.unitExponent)
        = significand * 2 ^ (Binary64.format.unitExponent + 1) := by ring
    _ < 2 ^ (significand.log2 + 1) * 2 ^ (Binary64.format.unitExponent + 1) :=
      Nat.mul_lt_mul_of_pos_right Nat.lt_log2_self (Nat.two_pow_pos _)
    _ ≤ 2 ^ (significand.log2 + 1) * 2 ^ places :=
      Nat.mul_le_mul_left _ (Nat.pow_le_pow_right (by omega) hunits)
    _ = 2 ^ (significand.log2 + 1 + places) := (pow_add _ _ _).symm

/-- So many doublings exceed all exponents. -/
theorem le_of_farAbove {significand : Nat} {exponent : Int} (hpos : significand ≠ 0)
    (h : (farBinaryExponent : Int) < exponent) :
    2 ^ (Binary64.format.fractionBits + 2 ^ Binary64.format.exponentBits) * 2 ^ (-exponent).toNat
      ≤ significand * 2 ^ exponent.toNat * Binary64.format.one := by
  rw [farBinaryExponent] at h
  have hpart : (-exponent).toNat = 0 := by omega
  have hbits : Binary64.format.fractionBits + 2 ^ Binary64.format.exponentBits
      ≤ exponent.toNat + Binary64.format.unitExponent := by
    have hvalue : Binary64.format.fractionBits + 2 ^ Binary64.format.exponentBits = 2100 := rfl
    rw [hvalue, Binary64.unitExponent_eq]
    omega
  rw [hpart, FloatFormat.one_eq, pow_zero, Nat.mul_one]
  calc
    2 ^ (Binary64.format.fractionBits + 2 ^ Binary64.format.exponentBits)
        ≤ 2 ^ (exponent.toNat + Binary64.format.unitExponent) :=
      Nat.pow_le_pow_right (by omega) hbits
    _ = 2 ^ exponent.toNat * 2 ^ Binary64.format.unitExponent := pow_add _ _ _
    _ ≤ significand * 2 ^ exponent.toNat * 2 ^ Binary64.format.unitExponent :=
      Nat.mul_le_mul_right _ (Nat.le_mul_of_pos_left _ (Nat.pos_of_ne_zero hpos))

/-- Times a power of two, every significand is rounded as its quotient is. -/
theorem binaryMagnitude_eq (significand : Nat) (exponent : Int) :
    binaryMagnitude significand exponent = scaledMagnitude 2 significand exponent := by
  unfold binaryMagnitude scaledMagnitude
  by_cases hzero : significand = 0
  · have hless : 2 * (0 * 2 ^ exponent.toNat * Binary64.format.one) < 2 ^ (-exponent).toNat := by
      simp
    rw [hzero, Binary64.format.nearest_of_lt hless, decide_eq_true rfl, Bool.true_or, if_pos rfl]
  · rw [decide_eq_false hzero, Bool.false_or]
    by_cases htiny : exponent + significand.log2 + 1 < -(farBinaryExponent : Int)
    · rw [Binary64.format.nearest_of_lt (two_mul_lt_of_farBelow htiny),
        if_pos (decide_eq_true htiny)]
    · rw [decide_eq_false htiny, if_neg Bool.false_ne_true]
      by_cases hhuge : (farBinaryExponent : Int) < exponent
      · rw [if_pos hhuge,
          Binary64.format.nearest_of_le (Nat.two_pow_pos _) (le_of_farAbove hzero hhuge)]
      · rw [if_neg hhuge]
        rfl

/-- So is every number of digits times a power of ten. -/
theorem decimalMagnitude_eq (digits : Nat) (exponent : Int) :
    Decimal.magnitude ⟨digits, exponent⟩ = scaledMagnitude 10 digits exponent :=
  Decimal.magnitude_eq_nearest _

/-- A fraction is spelled by the texts that a significand is taken off and an exponent left of. -/
theorem spellsFraction_iff {value : List Char → Nat} {lower upper : Char} {base places : Nat}
    {magnitude : Nat} (point : isDigit '.' = false) (hlower : isDigit lower = false ∧ lower ≠ '.')
    (hupper : isDigit upper = false ∧ upper ≠ '.') :
    SpellsFraction isDigit value lower upper base places s magnitude ↔
      ∃ digits, significand? isDigit s = some digits
        ∧ ∃ exponent, exponent? lower upper digits.2.2 = some exponent
          ∧ scaledMagnitude base (value (digits.1 ++ digits.2.1))
              (exponent - places * digits.2.1.length) = magnitude := by
  constructor
  · intro h
    cases h with
    | mk digits scale =>
      exact ⟨_, digits.significand?_append point (scale.ends hlower hupper), _,
        exponent?_eq_some_iff.mpr scale, rfl⟩
  · rintro ⟨⟨whole, fraction, rest⟩, hdigits, exponent, hexponent, rfl⟩
    obtain ⟨front, hfront, rfl⟩ := exists_significand hdigits
    exact .mk hfront (exponent?_eq_some_iff.mp hexponent)

/-- A decimal fraction is read exactly from the texts that spell it. -/
theorem decimalMagnitude?_eq_some_iff {magnitude : Nat} :
    decimalMagnitude? s = some magnitude ↔ SpellsDecimal s magnitude := by
  rw [SpellsDecimal, spellsFraction_iff rfl (by decide) (by decide)]
  simp only [decimalMagnitude?, Option.bind_eq_bind, Option.bind_eq_some_iff,
    decimalMagnitude_eq, Option.pure_def, Option.some.injEq, Nat.cast_one, one_mul]

/-- So is a hexadecimal one. -/
theorem hexMagnitude?_eq_some_iff {magnitude : Nat} :
    hexMagnitude? s = some magnitude ↔ SpellsHexadecimal s magnitude := by
  rw [SpellsHexadecimal, spellsFraction_iff rfl (by decide) (by decide)]
  simp only [hexMagnitude?, Option.bind_eq_bind, Option.bind_eq_some_iff, binaryMagnitude_eq,
    Option.pure_def, Option.some.injEq, Nat.cast_ofNat]

/-- Lower case changes capitals only, and makes them letters. -/
theorem toLower_cases (c : Char) :
    c.toLower = c ∨ 65 ≤ c.toNat ∧ c.toNat ≤ 90 ∧ c.toLower.toNat = c.toNat + 32 := by
  by_cases hupper : c.val ≥ 'A'.val ∧ c.val ≤ 'Z'.val
  · have hlow : 65 ≤ c.toNat := UInt32.le_iff_toNat_le.mp hupper.1
    have hhigh : c.toNat ≤ 90 := UInt32.le_iff_toNat_le.mp hupper.2
    refine Or.inr ⟨hlow, hhigh, ?_⟩
    have hsum : (c.val + ('a'.val - 'A'.val)).toNat = c.toNat + 32 := by
      have hval : c.val.toNat = c.toNat := rfl
      have hstep : ('a'.val - 'A'.val).toNat = 32 := rfl
      rw [UInt32.toNat_add]
      omega
    exact (congrArg Char.toNat (dif_pos hupper)).trans hsum
  · exact Or.inl (dif_neg hupper)

/-- What is no letter in lower case was none before. -/
theorem eq_of_toLower_eq {mark : Char} (h : c.toLower = mark) (plain : mark.toNat < 97) :
    c = mark := by
  rcases toLower_cases c with hsame | ⟨hlow, -, hlower⟩
  · exact hsame.symm.trans h
  · rw [h] at hlower
    omega

/-- A text whose lower case starts with the name of a NaN and a parenthesis. -/
theorem isPrefixOf_nan_iff :
    "nan(".toList.isPrefixOf (s.map Char.toLower) = true ↔
      ∃ name rest, name.map Char.toLower = "nan".toList ∧ s = name ++ '(' :: rest := by
  rw [List.isPrefixOf_iff_prefix]
  constructor
  · rintro ⟨rest, hrest⟩
    have hsplit : s.map Char.toLower = "nan".toList ++ '(' :: rest := hrest.symm
    obtain ⟨name, behind, rfl, hname, hbehind⟩ := List.map_eq_append_iff.mp hsplit
    obtain ⟨c, behind, rfl, hc, -⟩ := List.map_eq_cons_iff.mp hbehind
    exact ⟨name, behind, hname, by rw [eq_of_toLower_eq hc (by decide)]⟩
  · rintro ⟨name, rest, hname, rfl⟩
    exact ⟨rest.map Char.toLower, by rw [List.map_append, hname, List.map_cons]; rfl⟩

/-- Behind the name of a NaN and a parenthesis stand some characters and a last one. -/
theorem behind_nan {name : List Char} (letters : name.map Char.toLower = "nan".toList)
    (chars : List Char) (last : Char) :
    (name ++ '(' :: (chars ++ [last])).getLast? = some last
      ∧ ((name ++ '(' :: (chars ++ [last])).drop 4).dropLast = chars := by
  have hlength : name.length = 3 := by
    rw [← List.length_map (f := Char.toLower), letters]
    rfl
  constructor
  · rw [← List.cons_append, ← List.append_assoc, List.getLast?_concat]
  · simp [List.drop_append, hlength]

/-- The name of a special value is read exactly from the texts that spell it. -/
theorem specialMagnitude?_eq_some_iff {magnitude : Nat} :
    specialMagnitude? s = some magnitude ↔ SpellsSpecial s magnitude := by
  constructor
  · intro h
    unfold specialMagnitude? at h
    dsimp only at h
    split at h
    · rename_i hname
      rw [Bool.or_eq_true, decide_eq_true_eq, decide_eq_true_eq] at hname
      rw [← Option.some.inj h]
      exact .infinity hname
    split at h
    · rename_i hname
      rw [← Option.some.inj h]
      exact .nan hname
    split at h
    · rename_i hname
      rw [Bool.and_eq_true, Bool.and_eq_true, isPrefixOf_nan_iff, decide_eq_true_eq] at hname
      obtain ⟨⟨⟨name, rest, letters, rfl⟩, hlast⟩, hchars⟩ := hname
      rw [← Option.some.inj h]
      rcases List.eq_nil_or_concat' rest with rfl | ⟨chars, last, rfl⟩
      · rw [List.getLast?_concat] at hlast
        cases hlast
      · obtain ⟨hend, hbetween⟩ := behind_nan letters chars last
        rw [hend, Option.some.injEq] at hlast
        rw [hbetween] at hchars
        rw [hlast]
        exact .nanWith letters (List.all_eq_true.mp hchars)
    · cases h
  · intro h
    cases h with
    | infinity letters =>
      rw [specialMagnitude?, if_pos]
      rwa [Bool.or_eq_true, decide_eq_true_eq, decide_eq_true_eq]
    | nan letters =>
      simp only [specialMagnitude?, letters]
      rfl
    | nanWith letters payload =>
      rename_i name chars
      have hfirst := isPrefixOf_nan_iff.mpr ⟨name, chars ++ [')'], letters, rfl⟩
      obtain ⟨hend, hbetween⟩ := behind_nan letters chars ')'
      have hother : ∀ {word : List Char}, word.take 4 ≠ "nan(".toList →
          (name ++ '(' :: (chars ++ [')'])).map Char.toLower ≠ word := by
        rintro word hword rfl
        refine hword ?_
        rw [List.map_append, letters, List.map_cons]
        rfl
      rw [specialMagnitude?, if_neg, if_neg (hother (by decide)), if_pos]
      · rw [hfirst, hend, hbetween, List.all_eq_true.mpr payload]
        rfl
      · rw [Bool.or_eq_true, decide_eq_true_eq, decide_eq_true_eq, not_or]
        exact ⟨hother (by decide), hother (by decide)⟩

/-- What may occur in a fraction. -/
theorem SpellsFraction.cases_of_mem {value : List Char → Nat} {lower upper : Char}
    {base places magnitude : Nat}
    (h : SpellsFraction isDigit value lower upper base places s magnitude) (hc : c ∈ s) :
    isDigit c = true ∨ c.isDigit = true ∨ c ∈ ['.', lower, upper, '+', '-'] := by
  cases h with
  | mk digits scale =>
    rcases List.mem_append.mp hc with hc | hc
    · cases digits with
      | whole nonempty run => exact Or.inl (run c hc)
      | point nonempty before behind =>
        rcases List.mem_append.mp hc with hc | hc
        · exact Or.inl (before c hc)
        rcases List.mem_cons.mp hc with rfl | hc
        · exact Or.inr (Or.inr List.mem_cons_self)
        · exact Or.inl (behind c hc)
    · cases scale with
      | none => cases hc
      | some exponent negates run =>
        rcases List.mem_cons.mp hc with rfl | hc
        · exact Or.inr (Or.inr (by rcases exponent with rfl | rfl <;> simp))
        rcases List.mem_append.mp hc with hc | hc
        · cases negates with
          | none => cases hc
          | plus => exact Or.inr (Or.inr (by simp [List.mem_singleton.mp hc]))
          | minus => exact Or.inr (Or.inr (by simp [List.mem_singleton.mp hc]))
        · exact Or.inr (Or.inl ((allDigits_iff.mp run).2 c hc))

/-- What may occur in a decimal fraction. -/
theorem SpellsDecimal.cases_of_mem {magnitude : Nat} (h : SpellsDecimal s magnitude) (hc : c ∈ s) :
    c.isDigit = true ∨ c ∈ ['.', 'e', 'E', '+', '-'] := by
  rcases SpellsFraction.cases_of_mem h hc with hdigit | hother
  · exact Or.inl hdigit
  · exact hother

/-- The name of a special value starts with one of two letters. -/
theorem SpellsSpecial.exists_letter {magnitude : Nat} (h : SpellsSpecial s magnitude) :
    ∃ c rest, s = c :: rest ∧ (c.toLower = 'i' ∨ c.toLower = 'n') := by
  cases h with
  | infinity letters =>
    rcases letters with letters | letters
    · obtain ⟨c, rest, rfl, hc, -⟩ := List.map_eq_cons_iff.mp letters
      exact ⟨c, rest, rfl, Or.inl hc⟩
    · obtain ⟨c, rest, rfl, hc, -⟩ := List.map_eq_cons_iff.mp letters
      exact ⟨c, rest, rfl, Or.inl hc⟩
  | nan letters =>
    obtain ⟨c, rest, rfl, hc, -⟩ := List.map_eq_cons_iff.mp letters
    exact ⟨c, rest, rfl, Or.inr hc⟩
  | nanWith letters payload =>
    obtain ⟨c, rest, rfl, hc, -⟩ := List.map_eq_cons_iff.mp letters
    exact ⟨c, _, List.cons_append, Or.inr hc⟩

/-- Such a letter comes behind all digits. -/
theorem le_toNat_of_letter (h : c.toLower = 'i' ∨ c.toLower = 'n') : 65 ≤ c.toNat := by
  rcases toLower_cases c with hsame | ⟨hlow, -, -⟩
  · rw [hsame] at h
    rcases h with rfl | rfl <;> decide
  · exact hlow

/-- No special value is spelled by a decimal fraction. -/
theorem SpellsDecimal.specialMagnitude?_eq_none {magnitude : Nat} (h : SpellsDecimal s magnitude) :
    specialMagnitude? s = none := by
  cases hspecial : specialMagnitude? s with
  | none => rfl
  | some other =>
    obtain ⟨c, rest, rfl, hletter⟩ := (specialMagnitude?_eq_some_iff.mp hspecial).exists_letter
    rcases h.cases_of_mem List.mem_cons_self with hdigit | hmark
    · have hhigh : c.toNat ≤ 57 := (Char.isDigit_iff_toNat.mp hdigit).2
      have hlow := le_toNat_of_letter hletter
      omega
    · simp only [List.mem_cons, List.not_mem_nil, or_false] at hmark
      rcases hmark with rfl | rfl | rfl | rfl | rfl <;> exact absurd hletter (by decide)

/-- Reads what follows the sign of a floating-point number. -/
def magnitude? (s : List Char) : Option Nat :=
  match afterHexMark? s with
  | some digits => hexMagnitude? digits
  | none => (specialMagnitude? s).orElse fun _ => decimalMagnitude? s

/-- It is read exactly from the texts that spell it. -/
theorem magnitude?_eq_some_iff {magnitude : Nat} :
    magnitude? s = some magnitude ↔ SpellsMagnitude s magnitude := by
  constructor
  · intro h
    unfold magnitude? at h
    split at h
    · rename_i digits hmark
      obtain ⟨x, hx, rfl⟩ := afterHexMark?_eq_some_iff.mp hmark
      exact .hexadecimal hx (hexMagnitude?_eq_some_iff.mp h)
    · cases hspecial : specialMagnitude? s with
      | some other =>
        rw [hspecial] at h
        exact .special (specialMagnitude?_eq_some_iff.mp (hspecial.trans h))
      | none =>
        rw [hspecial] at h
        exact .decimal (decimalMagnitude?_eq_some_iff.mp h)
  · intro h
    cases h with
    | decimal digits =>
      have hmark : afterHexMark? s = none := by
        refine afterHexMark?_eq_none_of_notMem (fun hx => ?_) (fun hx => ?_)
        · exact (digits.cases_of_mem hx).elim (by decide) (by decide)
        · exact (digits.cases_of_mem hx).elim (by decide) (by decide)
      rw [magnitude?, hmark]
      simp only [digits.specialMagnitude?_eq_none, Option.orElse_none,
        decimalMagnitude?_eq_some_iff.mpr digits]
    | hexadecimal hex digits =>
      rw [magnitude?, afterHexMark?_eq_some_iff.mpr ⟨_, hex, rfl⟩]
      exact hexMagnitude?_eq_some_iff.mpr digits
    | special name =>
      have hmark : afterHexMark? s = none := by
        cases hmark : afterHexMark? s with
        | none => rfl
        | some rest =>
          obtain ⟨x, -, rfl⟩ := afterHexMark?_eq_some_iff.mp hmark
          obtain ⟨c, rest, hs, hletter⟩ := name.exists_letter
          rw [← (List.cons.inj hs).1] at hletter
          exact absurd hletter (by decide)
      rw [magnitude?, hmark]
      simp only [specialMagnitude?_eq_some_iff.mpr name, Option.orElse_some]

/-- Neither a sign nor white space is part of it. -/
theorem SpellsMagnitude.bare {magnitude : Nat} (h : SpellsMagnitude s magnitude) : Bare s := by
  cases h with
  | decimal digits =>
    cases digits with
    | mk digits scale =>
      cases digits with
      | whole nonempty run =>
        obtain ⟨c, rest, rfl⟩ := List.exists_cons_of_ne_nil nonempty
        exact bare_of_isDigit (run c List.mem_cons_self)
      | point nonempty before behind =>
        rename_i whole fraction _
        cases whole with
        | nil => exact bare_cons (c := '.') (by decide)
        | cons c rest => exact bare_of_isDigit (before c List.mem_cons_self)
  | hexadecimal hex digits => exact bare_of_isDigit rfl
  | special name =>
    obtain ⟨c, rest, rfl, hletter⟩ := name.exists_letter
    exact bare_cons (Nat.lt_of_lt_of_le (by decide) (le_toNat_of_letter hletter))

/-- A floating-point number is read exactly from the texts that spell it. -/
theorem real?_eq_some_iff {x : Binary64} : real? s = some x ↔ SpellsReal s x := by
  have hreal : ∀ s, real? s = (magnitude? (takeSign (s.dropWhile isSpace)).2).map
      (Binary64.ofMagnitude (takeSign (s.dropWhile isSpace)).1) := fun s => rfl
  rw [hreal, Option.map_eq_some_iff]
  constructor
  · rintro ⟨magnitude, hmagnitude, rfl⟩
    obtain ⟨blank, hblank, hspace⟩ := exists_blank s
    obtain ⟨sign, hsign, hrest⟩ := exists_sign (s.dropWhile isSpace)
    have hspells := SpellsReal.mk hblank hsign (magnitude?_eq_some_iff.mp hmagnitude)
    rwa [← hrest, ← hspace] at hspells
  · intro h
    cases h with
    | mk space mark size =>
      rw [dropWhile_isSpace_append space mark size.bare, mark.takeSign_append size.bare]
      exact ⟨_, magnitude?_eq_some_iff.mpr size, rfl⟩

theorem SpellsSign.mark_notMem (h : SpellsSign sign negative) : '!' ∉ sign := by
  cases h <;> decide

theorem mark_notMem_blank (space : ∀ c ∈ blank, isSpace c = true) : '!' ∉ blank := by
  intro hmem
  exact absurd (space '!' hmem) (by decide)

/-- No exclamation mark occurs in an integer. -/
theorem SpellsInteger.mark_notMem {n : Int} (h : SpellsInteger s n) : '!' ∉ s := by
  cases h with
  | decimal space mark run => exact notMem_decimal rfl (by decide) rfl space mark run
  | hexadecimal mark hex nonempty run =>
    intro hmem
    rcases List.mem_append.mp hmem with hmem | hmem
    · exact mark.mark_notMem hmem
    rcases List.mem_cons.mp hmem with hzero | hmem
    · cases hzero
    rcases List.mem_cons.mp hmem with hmark | hmem
    · rcases hex with rfl | rfl <;> cases hmark
    · exact absurd (run '!' hmem) (by decide)

/-- Nor does one in the name of a special value. -/
theorem SpellsSpecial.mark_notMem {magnitude : Nat} (h : SpellsSpecial s magnitude) : '!' ∉ s := by
  have hname : ∀ {name word : List Char}, name.map Char.toLower = word →
      '!' ∉ word → '!' ∉ name := by
    rintro name word rfl hword hmem
    exact hword (List.mem_map_of_mem (f := Char.toLower) hmem)
  cases h with
  | infinity letters => exact letters.elim (hname · (by decide)) (hname · (by decide))
  | nan letters => exact hname letters (by decide)
  | nanWith letters payload =>
    intro hmem
    rcases List.mem_append.mp hmem with hmem | hmem
    · exact hname letters (by decide) hmem
    rcases List.mem_cons.mp hmem with hopen | hmem
    · cases hopen
    rcases List.mem_append.mp hmem with hmem | hmem
    · exact absurd (payload '!' hmem) (by decide)
    · cases List.mem_singleton.mp hmem

/-- Nor does one in a floating-point number. -/
theorem SpellsReal.mark_notMem {x : Binary64} (h : SpellsReal s x) : '!' ∉ s := by
  cases h with
  | mk space mark size =>
    intro hmem
    rcases List.mem_append.mp hmem with hmem | hmem
    · exact mark_notMem_blank space hmem
    rcases List.mem_append.mp hmem with hmem | hmem
    · exact mark.mark_notMem hmem
    cases size with
    | decimal digits => exact (digits.cases_of_mem hmem).elim (by decide) (by decide)
    | hexadecimal hex digits =>
      rcases List.mem_cons.mp hmem with hzero | hmem
      · cases hzero
      rcases List.mem_cons.mp hmem with hmark | hmem
      · rcases hex with rfl | rfl <;> cases hmark
      · rcases SpellsFraction.cases_of_mem digits hmem with hdigit | hdigit | hother
        · exact absurd hdigit (by decide)
        · exact absurd hdigit (by decide)
        · exact absurd hother (by decide)
    | special name => exact name.mark_notMem hmem

end Reference

end ByteRecord
