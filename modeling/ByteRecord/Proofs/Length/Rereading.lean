import ByteRecord.Proofs.Length.Grammar

/-!
# Lengths that read back

A length that was read is well-formed, and the written form of a well-formed length denotes it again.
Only an expression that adds a single operand to zero has no operator left when it is written; it is read
as the count or the field that the operand is, which `Length.plain` says.
-/

namespace ByteRecord

open DecimalLayout

namespace Length

/-- An expression that adds a single operand to zero as what it is read again: the count or the field
that the operand is. -/
def plain : Length → Length
  | expression [⟨.add, .count n⟩] => literal n
  | expression [⟨.add, .field name⟩] => field name
  | length => length

/-- The plain length reads the same fields. -/
theorem fields_plain (length : Length) : length.plain.fields = length.fields := by
  unfold plain
  split <;> rfl

variable {c : Char} {s text : List Char} {length : Length} {operand : Operand} {terms : List Term}

/-- An operand that is spelled without white space is a count that is not negative or a name. -/
theorem SpellsOperand.wellFormed (h : SpellsOperand s operand)
    (hspace : ∀ c ∈ s, isSpace c = false) : operand.WellFormed := by
  obtain ⟨hne, hfree⟩ := h.operatorFree
  cases h with
  | count run bound =>
    rw [Operand.WellFormed, Int64.lt_iff_toInt_lt, Int64.toInt_zero, Int64.toInt_ofNat_of_lt bound]
    omega
  | field nonempty notDigits signFree =>
    rw [Operand.WellFormed, String.toList_ofList]
    exact ⟨nonempty, hspace, hfree, notDigits⟩

theorem SpellsTerms.wellFormed (h : SpellsTerms s terms) (hspace : ∀ c ∈ s, isSpace c = false) :
    ∀ term ∈ terms, term.operand.WellFormed := by
  induction h with
  | nil => exact List.forall_mem_nil _
  | cons written more ih =>
    obtain ⟨hwritten, hmore⟩ := List.forall_mem_append.mp (List.forall_mem_cons.mp hspace).2
    exact List.forall_mem_cons.mpr ⟨written.wellFormed hwritten, ih hmore⟩

/-- A length that a text without white space denotes is well-formed. -/
theorem Denotes.wellFormed (h : Denotes text length) (hspace : ∀ c ∈ text, isSpace c = false) :
    length.WellFormed := by
  cases h with
  | remainder => trivial
  | literal written => exact written.wellFormed hspace
  | field written => exact written.wellFormed hspace
  | signed nonempty written => exact ⟨nonempty, written.wellFormed hspace⟩
  | unsigned nonempty leading written =>
    obtain ⟨hfirst, hrest⟩ := List.forall_mem_append.mp hspace
    exact ⟨List.cons_ne_nil _ _,
      List.forall_mem_cons.mpr ⟨leading.wellFormed hfirst, written.wellFormed hrest⟩⟩

/-- A length that was read is well-formed. -/
theorem wellFormed_of_ofJson {value : Json} (h : ofJson value = .ok length) :
    length.WellFormed := by
  cases value with
  | number n =>
    rw [ofJson] at h
    split at h
    · rename_i count hcount
      injection h with h
      rw [← h, ofInt64]
      split
      · assumption
      · assumption
    · cases h
  | string s =>
    refine (readChars_eq_ok_iff.mp h).wellFormed fun c hc => ?_
    have hkept := (List.mem_filter.mp hc).2
    rwa [Bool.not_eq_true'] at hkept
  | _ => cases h

/-- A count that is not negative is written in digits only. -/
theorem integerText_of_nonneg {n : Int64} (h : ¬ n < 0) :
    Number.integerText n.toInt = digits n.toInt.toNat := by
  rw [Int64.lt_iff_toInt_lt, Int64.toInt_zero] at h
  have habs : n.toInt.natAbs = n.toInt.toNat := by omega
  rw [Number.integerText, if_neg h, habs]

/-- A written operand spells it. -/
theorem spellsOperand_chars (h : operand.WellFormed) : SpellsOperand operand.chars operand := by
  cases operand with
  | count n =>
    have hlt := n.toInt_lt
    have hsign : 0 ≤ n.toInt := by
      rw [Operand.WellFormed, Int64.lt_iff_toInt_lt, Int64.toInt_zero] at h
      omega
    have hvalue := decimalNat_digits n.toInt.toNat
    have hself : Int64.ofNat (decimalNat (digits n.toInt.toNat)) = n := by
      rw [hvalue, ← Int64.ofInt_eq_ofNat, Int.toNat_of_nonneg hsign, Int64.ofInt_toInt]
    have hcount := SpellsOperand.count (allDigits_digits n.toInt.toNat) (by omega)
    rw [hself] at hcount
    rwa [Operand.chars, integerText_of_nonneg h]
  | field name =>
    have hname := SpellsOperand.field h.nonempty h.notDigits (signFree_iff.mpr h.operatorFree)
    rwa [String.ofList_toList] at hname

/-- Written terms spell them. -/
theorem spellsTerms_chars (h : ∀ term ∈ terms, term.operand.WellFormed) :
    SpellsTerms (terms.flatMap Term.chars) terms := by
  induction terms with
  | nil => exact .nil
  | cons term rest ih =>
    obtain ⟨hterm, hrest⟩ := List.forall_mem_cons.mp h
    exact .cons (spellsOperand_chars hterm) (ih hrest)

/-- No white space is written in an operand. -/
theorem isSpace_of_mem_chars (h : operand.WellFormed) (hc : c ∈ operand.chars) :
    isSpace c = false := by
  cases operand with
  | count n =>
    rw [Operand.chars, integerText_of_nonneg h] at hc
    exact (not_isOperator_of_isDigit (isDigit_of_mem_digits hc)).2
  | field name => exact h.unspaced c hc

/-- No white space is written in an expression. -/
theorem isSpace_of_mem_termsChars (h : ∀ term ∈ terms, term.operand.WellFormed)
    (hc : c ∈ termsChars terms) : isSpace c = false := by
  have hkept : c ∈ terms.flatMap Term.chars := by
    cases terms with
    | nil => exact hc
    | cons first rest =>
      rw [termsChars, List.mem_append] at hc
      rw [List.flatMap_cons, List.mem_append]
      refine hc.imp_left fun hfirst => ?_
      split at hfirst
      · exact List.mem_cons_of_mem _ hfirst
      · exact hfirst
  obtain ⟨term, hterm, hchars⟩ := List.mem_flatMap.mp hkept
  obtain rfl | hoperand := List.mem_cons.mp hchars
  · cases term.op <;> rfl
  · exact isSpace_of_mem_chars (h term hterm) hoperand

/-- An expression with another operator than one plus at its start is plain. -/
theorem plain_expression {first : Term} {rest : List Term} (h : first.op ≠ .add ∨ rest ≠ []) :
    (expression (first :: rest)).plain = expression (first :: rest) := by
  unfold plain
  split
  · rename_i heq
    cases heq
    exact absurd h (by simp)
  · rename_i heq
    cases heq
    exact absurd h (by simp)
  · rfl

/-- A written expression denotes it as a plain one. -/
theorem denotes_termsChars {first : Term} {rest : List Term} (hfirst : first.operand.WellFormed)
    (hrest : ∀ term ∈ rest, term.operand.WellFormed) :
    Denotes (termsChars (first :: rest)) (expression (first :: rest)).plain := by
  have hspelled := spellsOperand_chars hfirst
  have hmore := spellsTerms_chars hrest
  rw [termsChars]
  by_cases hop : first.op = .add
  · rw [if_pos hop]
    obtain ⟨op, operand⟩ := first
    obtain rfl : op = .add := hop
    by_cases hnil : rest = []
    · subst hnil
      rw [List.flatMap_nil, List.append_nil]
      cases operand with
      | count n => exact .literal hspelled
      | field name => exact .field hspelled
    · rw [plain_expression (Or.inr hnil)]
      exact .unsigned hnil hspelled hmore
  · rw [if_neg hop, plain_expression (Or.inl hop)]
    exact .signed (List.cons_ne_nil _ _) (.cons hspelled hmore)

/-- A written length denotes it as a plain one, and no white space is written. A distance from the end
is the exception: it is written as a term that is taken away. -/
theorem denotes_chars (h : length.WellFormed) (hplace : ∀ back, length ≠ fromEnd back) :
    Denotes length.chars length.plain ∧ ∀ c ∈ length.chars, isSpace c = false := by
  cases length with
  | literal n =>
    have hcount : (Operand.count n).WellFormed := h
    exact ⟨.literal (spellsOperand_chars hcount), fun c => isSpace_of_mem_chars hcount⟩
  | fromEnd n => exact absurd rfl (hplace n)
  | remainder => exact ⟨.remainder, List.forall_mem_singleton.mpr rfl⟩
  | field name =>
    have hname : (Operand.field name).WellFormed := h
    exact ⟨.field (spellsOperand_chars hname), fun c => isSpace_of_mem_chars hname⟩
  | expression terms =>
    obtain ⟨hne, hterms⟩ := h
    refine ⟨?_, fun c => isSpace_of_mem_termsChars hterms⟩
    cases terms with
    | nil => exact absurd rfl hne
    | cons first rest =>
      obtain ⟨hfirst, hrest⟩ := List.forall_mem_cons.mp hterms
      exact denotes_termsChars hfirst hrest

/-- A length that was read is read back from its written form as a plain one, unless it is a distance
from the end. -/
theorem ofJson_text (h : length.WellFormed) (hplace : ∀ back, length ≠ fromEnd back) :
    ofJson (.string length.text) = .ok length.plain := by
  obtain ⟨hdenotes, hspace⟩ := denotes_chars h hplace
  have hfilter : length.chars.filter (fun c => !isSpace c) = length.chars :=
    List.filter_eq_self.mpr fun c hc => by rw [hspace c hc]; rfl
  rw [ofJson, text, String.toList_ofList, hfilter]
  exact readChars_eq_ok_iff.mpr hdenotes

/-- A length that was read is read back from a description as a plain one. -/
theorem ofJson_toJson (h : length.WellFormed) : ofJson length.toJson = .ok length.plain := by
  cases length with
  | literal n =>
    have hword : ofInt64 n = literal n := if_neg h
    exact congrArg Except.ok hword
  | fromEnd n =>
    have hword : ofInt64 n = fromEnd n := if_pos h
    exact congrArg Except.ok hword
  | _ => exact ofJson_text h nofun

end Length

end ByteRecord
