import ByteRecord.Proofs.Length.Reading

/-!
# The grammar of lengths

Which texts are lengths, and which length each of them denotes, told without cutting a text: a star, a
single operand, or operands with operators between them, in front of the first of which an operator may
stand. No operand holds the sign of an operator, so the signs in a text are those that stand between
its operands. The terms of an expression spell its text again, but for a plus at its start and for
zeros in front of its numbers.
-/

namespace ByteRecord

open DecimalLayout

namespace Length

/-- An operand as it is written. -/
inductive SpellsOperand : List Char → Operand → Prop
  /-- A non-empty run of decimal digits whose number is a signed 64-bit one. -/
  | count {digits : List Char} (run : allDigits digits = true)
      (bound : decimalNat digits < 2 ^ 63) :
      SpellsOperand digits (.count (Int64.ofNat (decimalNat digits)))
  /-- A non-empty name that is no run of digits and holds no sign of an operator. -/
  | field {name : List Char} (nonempty : name ≠ []) (notDigits : allDigits name = false)
      (signFree : ∀ op : Operator, op.sign ∉ name) :
      SpellsOperand name (.field (String.ofList name))

/-- Terms behind others: each is the sign of an operator and an operand. -/
inductive SpellsTerms : List Char → List Term → Prop
  /-- No further term. -/
  | nil : SpellsTerms [] []
  /-- A term and those behind it. -/
  | cons {op : Operator} {operand : Operand} {chars rest : List Char} {terms : List Term}
      (written : SpellsOperand chars operand) (more : SpellsTerms rest terms) :
      SpellsTerms (op.sign :: (chars ++ rest)) (⟨op, operand⟩ :: terms)

/-- A text that denotes a length. -/
inductive Denotes : List Char → Length → Prop
  /-- A star, for the rest of the data. -/
  | remainder : Denotes ['*'] remainder
  /-- A count. -/
  | literal {text : List Char} {n : Int64} (written : SpellsOperand text (.count n)) :
      Denotes text (literal n)
  /-- The name of a field. -/
  | field {text : List Char} {name : String} (written : SpellsOperand text (.field name)) :
      Denotes text (field name)
  /-- An expression that starts with an operator. -/
  | signed {text : List Char} {terms : List Term} (nonempty : terms ≠ [])
      (written : SpellsTerms text terms) : Denotes text (expression terms)
  /-- An expression that starts with an operand, which is added to zero. -/
  | unsigned {first rest : List Char} {operand : Operand} {terms : List Term} (nonempty : terms ≠ [])
      (leading : SpellsOperand first operand) (written : SpellsTerms rest terms) :
      Denotes (first ++ rest) (expression (⟨.add, operand⟩ :: terms))

/-- The characters of a text that count in a length. -/
def unspaced (s : String) : List Char := s.toList.filter fun c => !isSpace c

/-- What stands between the operators of a text and is no number, in order. -/
def names (text : List Char) : List String :=
  ((text.splitOnP isOperator).filter fun piece => !piece.isEmpty && !allDigits piece).map
    String.ofList

/-- A term with its sign, and with so many zeros in front of its number. A name is written as it
is. -/
def zeroedChars (term : Term) (count : Nat) : List Char :=
  match term.operand with
  | .count _ => term.op.sign :: (zeros count ++ term.operand.chars)
  | .field _ => term.chars

variable {c : Char} {s text chars : List Char} {length : Length} {operand : Operand}
  {term : Term} {terms : List Term}

theorem signFree_iff :
    (∀ op : Operator, op.sign ∉ s) ↔ ∀ c ∈ s, isOperator c = false := by
  constructor
  · intro h c hc
    rw [Bool.eq_false_iff]
    intro hop
    obtain ⟨op, rfl⟩ := isOperator_iff.mp hop
    exact h op hc
  · intro h op hmem
    have hsign := h _ hmem
    rw [isOperator_sign] at hsign
    cases hsign

/-- An operand is not empty and holds no operator. -/
theorem SpellsOperand.operatorFree (h : SpellsOperand s operand) :
    s ≠ [] ∧ ∀ c ∈ s, isOperator c = false := by
  cases h with
  | count run bound =>
    obtain ⟨hne, hdigits⟩ := allDigits_iff.mp run
    exact ⟨hne, fun c hc => (not_isOperator_of_isDigit (hdigits c hc)).1⟩
  | field nonempty notDigits signFree => exact ⟨nonempty, signFree_iff.mp signFree⟩

/-- A text without operators is read as an operand exactly if it spells it. -/
theorem readOperand_eq_ok_iff (hfree : ∀ c ∈ s, isOperator c = false) :
    readOperand text s = .ok operand ↔ SpellsOperand s operand := by
  constructor
  · intro h
    unfold readOperand at h
    split_ifs at h with hempty hdigits
    · obtain ⟨n, hn, rfl⟩ := map_eq_ok_iff.mp h
      obtain ⟨hbound, rfl⟩ := (readCount_eq_ok_iff hdigits).mp hn
      exact .count hdigits hbound
    · rw [← Except.ok.inj h]
      exact .field (fun hnil => hempty (List.isEmpty_iff.mpr hnil)) (Bool.eq_false_iff.mpr hdigits)
        (signFree_iff.mpr hfree)
  · intro h
    obtain ⟨hne, -⟩ := h.operatorFree
    rw [readOperand, if_neg (fun hempty => hne (List.isEmpty_iff.mp hempty))]
    cases h with
    | count run bound =>
      rw [if_pos run, (readCount_eq_ok_iff run).mpr ⟨bound, rfl⟩]
      rfl
    | field nonempty notDigits signFree => rw [if_neg (by rw [notDigits]; decide)]

/-- A term is read from its operand and the operator that is taken off. -/
theorem readTerm_eq_ok_iff {op : Operator} {segment : List Char}
    (htake : takeOperator segment = (op, s)) (hfree : ∀ c ∈ s, isOperator c = false) :
    readTerm text segment = .ok term ↔ ∃ operand, SpellsOperand s operand ∧ term = ⟨op, operand⟩ := by
  rw [readTerm, htake]
  refine bind_eq_ok_iff.trans (exists_congr fun operand => and_congr ?_ ?_)
  · exact readOperand_eq_ok_iff hfree
  · exact ⟨fun h => (Except.ok.inj h).symm, fun h => congrArg Except.ok h.symm⟩

/-- The terms behind others start with an operator. -/
theorem SpellsTerms.isOperator_head (h : SpellsTerms s terms) :
    ∀ c ∈ s.head?, isOperator c = true := by
  cases h with
  | nil => simp
  | cons written more =>
    intro c hc
    rw [← Option.mem_some.mp hc]
    exact isOperator_sign _

/-- Written terms are cut and read as themselves. -/
theorem SpellsTerms.mapM_readTerm (h : SpellsTerms s terms) :
    (segments s).mapM (readTerm text) = .ok terms := by
  induction h with
  | nil => rfl
  | @cons op operand chars rest terms written more ih =>
    obtain ⟨-, hfree⟩ := written.operatorFree
    have hterm : readTerm text (op.sign :: chars) = .ok ⟨op, operand⟩ :=
      (readTerm_eq_ok_iff (takeOperator_sign op chars) hfree).mpr ⟨operand, written, rfl⟩
    rw [← List.cons_append, segments_append (List.cons_ne_nil _ _) hfree more.isOperator_head,
      List.mapM_cons, hterm, ih]
    rfl

/-- Pieces of an operator and a text without operators spell the terms that they are read as. -/
theorem spellsTerms_of_mapM {pieces : List (List Char)}
    (hpieces : ∀ piece ∈ pieces, ∃ (op : Operator) (chars : List Char),
      piece = op.sign :: chars ∧ ∀ c ∈ chars, isOperator c = false)
    (h : pieces.mapM (readTerm text) = .ok terms) : SpellsTerms pieces.flatten terms := by
  induction pieces generalizing terms with
  | nil =>
    rw [← Except.ok.inj h]
    exact .nil
  | cons piece rest ih =>
    obtain ⟨⟨op, chars, rfl, hfree⟩, hrest⟩ := List.forall_mem_cons.mp hpieces
    rw [List.mapM_cons] at h
    obtain ⟨term, hterm, h⟩ := bind_eq_ok_iff.mp h
    obtain ⟨others, hothers, h⟩ := bind_eq_ok_iff.mp h
    obtain ⟨operand, written, rfl⟩ :=
      (readTerm_eq_ok_iff (takeOperator_sign op _) hfree).mp hterm
    rw [← Except.ok.inj h]
    exact .cons written (ih hrest hothers)

/-- A text with an operator that is read term by term denotes the expression of these terms. -/
theorem denotes_of_mapM (hoperator : ∃ c ∈ text, isOperator c = true)
    (h : (segments text).mapM (readTerm text) = .ok terms) : Denotes text (expression terms) := by
  obtain ⟨d, hd, hop⟩ := hoperator
  obtain ⟨c, rest, rfl⟩ := List.exists_cons_of_ne_nil (List.ne_nil_of_mem hd)
  obtain ⟨front, others, hcuts⟩ := exists_segments_cons c rest
  obtain ⟨-, hfree⟩ := segments_spec (hcuts ▸ List.mem_cons_self)
  have hwhole := flatten_segments (c :: rest)
  rw [hcuts, List.flatten_cons] at hwhole
  rw [hcuts, List.mapM_cons] at h
  obtain ⟨term, hterm, h⟩ := bind_eq_ok_iff.mp h
  obtain ⟨later, hlater, h⟩ := bind_eq_ok_iff.mp h
  have hmore := spellsTerms_of_mapM (exists_sign_of_segments hcuts) hlater
  rw [← Except.ok.inj h, ← hwhole]
  by_cases hc : isOperator c = true
  · obtain ⟨op, rfl⟩ := isOperator_iff.mp hc
    obtain ⟨operand, written, rfl⟩ :=
      (readTerm_eq_ok_iff (takeOperator_sign op _) hfree).mp hterm
    exact .signed (List.cons_ne_nil _ _) (.cons written hmore)
  · have hall : ∀ e ∈ c :: front, isOperator e = false :=
      List.forall_mem_cons.mpr ⟨Bool.eq_false_iff.mpr hc, hfree⟩
    obtain ⟨operand, written, rfl⟩ :=
      (readTerm_eq_ok_iff (takeOperator_of_operatorFree hall) hall).mp hterm
    refine .unsigned (fun hnil => ?_) written hmore
    -- Without further terms the text is its first operand, which holds no operator.
    have hnone : others = [] := by
      obtain ⟨hlength, -⟩ := exists_of_mapM hlater
      rw [hnil] at hlength
      exact List.length_eq_zero_iff.mp hlength.symm
    rw [hnone, List.flatten_nil, List.append_nil] at hwhole
    rw [← hwhole] at hd
    rw [hall d hd] at hop
    cases hop

/-- An expression that starts with an operator is read as its terms. -/
theorem SpellsTerms.readChars_eq (h : SpellsTerms s terms) (nonempty : terms ≠ []) :
    readChars s = .ok (expression terms) := by
  have hterms : ∀ text, (segments s).mapM (readTerm text) = .ok terms := fun text => h.mapM_readTerm
  cases h with
  | nil => exact absurd rfl nonempty
  | cons written more =>
    obtain ⟨hne, -⟩ := written.operatorFree
    rw [readChars_of_isOperator ⟨_, List.mem_cons_self, isOperator_sign _⟩, hterms]
    · rfl
    · intro hstar
      exact hne (List.append_eq_nil_iff.mp (List.cons.inj hstar).2).1

/-- An expression that starts with an operand is read as its terms, the first of which adds. -/
theorem SpellsTerms.readChars_append (h : SpellsTerms s terms) (nonempty : terms ≠ [])
    (leading : SpellsOperand chars operand) :
    readChars (chars ++ s) = .ok (expression (⟨.add, operand⟩ :: terms)) := by
  obtain ⟨hne, hfree⟩ := leading.operatorFree
  have hfirst : ∀ text, readTerm text chars = .ok ⟨.add, operand⟩ := fun text =>
    (readTerm_eq_ok_iff (takeOperator_of_operatorFree hfree) hfree).mpr ⟨operand, leading, rfl⟩
  have hoperator : ∃ c ∈ chars ++ s, isOperator c = true := by
    cases h with
    | nil => exact absurd rfl nonempty
    | cons written more =>
      exact ⟨_, List.mem_append_right _ List.mem_cons_self, isOperator_sign _⟩
  have hstar : chars ++ s ≠ ['*'] := fun hstar => by
    obtain ⟨c, rest, rfl⟩ := List.exists_cons_of_ne_nil hne
    have hc := hfree c List.mem_cons_self
    rw [(List.cons.inj hstar).1] at hc
    cases hc
  have htail : ∀ c ∈ chars.tail, isOperator c = false := fun c hc =>
    hfree c (List.mem_of_mem_tail hc)
  rw [readChars_of_isOperator hoperator hstar, segments_append hne htail h.isOperator_head,
    List.mapM_cons, hfirst, h.mapM_readTerm]
  rfl

/-- A text is read as a length exactly if it denotes it. -/
theorem readChars_eq_ok_iff : readChars text = .ok length ↔ Denotes text length := by
  constructor
  · intro h
    by_cases hstar : text = ['*']
    · subst hstar
      cases h
      exact .remainder
    by_cases hdigits : allDigits text = true
    · rw [readChars_digits hdigits] at h
      obtain ⟨n, hn, rfl⟩ := map_eq_ok_iff.mp h
      obtain ⟨hbound, rfl⟩ := (readCount_eq_ok_iff hdigits).mp hn
      exact .literal (.count hdigits hbound)
    by_cases hoperator : ∃ c ∈ text, isOperator c = true
    · rw [readChars_of_isOperator hoperator hstar] at h
      obtain ⟨terms, hterms, rfl⟩ := map_eq_ok_iff.mp h
      exact denotes_of_mapM hoperator hterms
    · have hany : ¬ text.any isOperator = true := fun hany =>
        hoperator (List.any_eq_true.mp hany)
      unfold readChars at h
      split_ifs at h with hempty
      rw [← Except.ok.inj h]
      refine .field (.field (fun hnil => hempty (List.isEmpty_iff.mpr hnil))
        (Bool.eq_false_iff.mpr hdigits) (signFree_iff.mpr fun c hc => ?_))
      exact Bool.eq_false_iff.mpr fun hop => hoperator ⟨c, hc, hop⟩
  · intro h
    cases h with
    | remainder => rfl
    | literal written =>
      cases written with
      | count run bound =>
        rw [readChars_digits run, (readCount_eq_ok_iff run).mpr ⟨bound, rfl⟩]
        rfl
    | field written =>
      obtain ⟨hne, hfree⟩ := written.operatorFree
      cases written with
      | field nonempty notDigits signFree =>
        exact readChars_of_operatorFree nonempty hfree notDigits
    | signed nonempty written => exact written.readChars_eq nonempty
    | unsigned nonempty leading written => exact written.readChars_append nonempty leading

/-- No text denotes a distance from the end. -/
theorem Denotes.ne_fromEnd (h : Denotes text length) (back : Int64) : length ≠ fromEnd back := by
  rintro rfl
  cases h

/-- Names of a text that an operator divides are those on either side. -/
theorem names_append_sign (front behind : List Char) (op : Operator) :
    names (front ++ op.sign :: behind) = names front ++ names behind := by
  rw [names, List.splitOnP_append_cons _ _ (isOperator_sign op), List.filter_append,
    List.map_append, ← names, ← names]

/-- An operand is a name if it reads a field. -/
theorem SpellsOperand.names_eq (h : SpellsOperand s operand) :
    names s = operand.field?.toList := by
  obtain ⟨hne, hfree⟩ := h.operatorFree
  rw [names, List.splitOnP_eq_singleton hfree]
  cases h with
  | count run bound => simp [run, Operand.field?]
  | field nonempty notDigits signFree => simp [nonempty, notDigits, Operand.field?]

/-- The names behind others are the fields that the terms read. -/
theorem SpellsTerms.names_append (h : SpellsTerms s terms) (front : List Char) :
    names (front ++ s) = names front ++ terms.filterMap (·.operand.field?) := by
  induction h generalizing front with
  | nil => rw [List.append_nil, List.filterMap_nil, List.append_nil]
  | @cons op operand chars rest terms written more ih =>
    rw [names_append_sign, ih, written.names_eq]
    cases operand <;> simp [Operand.field?]

/-- The names of a text are the fields that the length reads. -/
theorem Denotes.names_eq (h : Denotes text length) : names text = length.fields := by
  cases h with
  | remainder => rfl
  | literal written => exact written.names_eq
  | field written => exact written.names_eq
  | signed nonempty written => exact written.names_append []
  | @unsigned first rest operand terms nonempty leading written =>
    rw [written.names_append, leading.names_eq, fields]
    cases operand <;> rfl

/-- A written operand is the operand, with zeros in front of a number. -/
theorem SpellsOperand.exists_zeros (h : SpellsOperand s operand) (op : Operator) :
    ∃ count, op.sign :: s = zeroedChars ⟨op, operand⟩ count := by
  cases h with
  | count run bound =>
    obtain ⟨count, hcount⟩ := exists_zeros_append_digits run
    have hvalue : (Int64.ofNat (decimalNat s)).toInt = decimalNat s :=
      Int64.toInt_ofNat_of_lt bound
    have hchars : Number.integerText (Int64.ofNat (decimalNat s)).toInt = digits (decimalNat s) := by
      rw [hvalue]
      rfl
    refine ⟨count, ?_⟩
    rw [zeroedChars, Operand.chars, hchars, ← hcount]
  | field nonempty notDigits signFree =>
    refine ⟨0, ?_⟩
    rw [zeroedChars, Term.chars, Operand.chars, String.toList_ofList]

/-- Written terms are the terms, with zeros in front of numbers. -/
theorem SpellsTerms.exists_zeros (h : SpellsTerms s terms) :
    ∃ counts : List Nat, counts.length = terms.length
      ∧ (List.zipWith zeroedChars terms counts).flatten = s := by
  induction h with
  | nil => exact ⟨[], rfl, rfl⟩
  | @cons op operand chars rest terms written more ih =>
    obtain ⟨count, hterm⟩ := written.exists_zeros op
    obtain ⟨counts, hlength, hterms⟩ := ih
    refine ⟨count :: counts, congrArg Nat.succ hlength, ?_⟩
    rw [List.zipWith_cons_cons, List.flatten_cons, ← hterm, hterms, List.cons_append]

/-- The terms of an expression spell its text, but for a plus at its start and for zeros. -/
theorem Denotes.exists_zeros (h : Denotes text (expression terms)) :
    ∃ counts : List Nat, counts.length = terms.length
      ∧ ((List.zipWith zeroedChars terms counts).flatten = text
        ∨ (List.zipWith zeroedChars terms counts).flatten = '+' :: text) := by
  cases h with
  | signed nonempty written =>
    obtain ⟨counts, hlength, hterms⟩ := written.exists_zeros
    exact ⟨counts, hlength, Or.inl hterms⟩
  | @unsigned first rest operand terms nonempty leading written =>
    have hplus : SpellsTerms (Operator.add.sign :: (first ++ rest)) (⟨.add, operand⟩ :: terms) :=
      .cons leading written
    obtain ⟨counts, hlength, hterms⟩ := hplus.exists_zeros
    exact ⟨counts, hlength, Or.inr hterms⟩

/-- A text is read as a length exactly if it denotes it without its white space. The length reads the
names between the operators, in order, and the terms of an expression spell the text again, but for a
plus at its start and for zeros in front of its numbers. -/
theorem ofJson_string_eq_ok_iff (s : String) (length : Length) :
    (ofJson (.string s) = .ok length ↔ Denotes (unspaced s) length)
      ∧ (ofJson (.string s) = .ok length →
        length.fields = names (unspaced s)
          ∧ ∀ terms, length = expression terms →
            ∃ counts : List Nat, counts.length = terms.length
              ∧ ((List.zipWith zeroedChars terms counts).flatten = unspaced s
                ∨ (List.zipWith zeroedChars terms counts).flatten = '+' :: unspaced s)) := by
  have hread : ofJson (.string s) = .ok length ↔ Denotes (unspaced s) length := readChars_eq_ok_iff
  refine ⟨hread, fun h => ?_⟩
  have hdenotes := hread.mp h
  refine ⟨hdenotes.names_eq.symm, ?_⟩
  rintro terms rfl
  exact hdenotes.exists_zeros

/-- A text of two numbers and a field, with white space and with zeros in front. -/
def productText : String := " -2 * width\n+ 007"

/-- The terms of that text. -/
def productTerms : List Term :=
  [⟨.subtract, .count 2⟩, ⟨.multiply, .field "width"⟩, ⟨.add, .count 7⟩]

/-- That text denotes these terms, which spell it again. -/
theorem ofJson_string_productText :
    ofJson (.string productText) = .ok (expression productTerms)
      ∧ Denotes (unspaced productText) (expression productTerms)
      ∧ names (unspaced productText) = ["width"]
      ∧ ∃ counts : List Nat, counts.length = 3
        ∧ ((List.zipWith zeroedChars productTerms counts).flatten = unspaced productText
          ∨ (List.zipWith zeroedChars productTerms counts).flatten = '+' :: unspaced productText) := by
  have hread : ofJson (.string productText) = .ok (expression productTerms) := rfl
  obtain ⟨hdenotes, hspelled⟩ := ofJson_string_eq_ok_iff productText (expression productTerms)
  obtain ⟨hfields, hterms⟩ := hspelled hread
  exact ⟨hread, hdenotes.mp hread, hfields.symm, hterms _ rfl⟩

end Length

end ByteRecord
