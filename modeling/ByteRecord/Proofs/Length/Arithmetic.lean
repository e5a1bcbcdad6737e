import ByteRecord.Proofs.Floating.Arithmetic
import ByteRecord.Proofs.Length.Lookup
import ByteRecord.Proofs.Scalar.Words

/-!
# Length arithmetic on integers

Sums, differences and products of integers are worked out exactly, from left to right and from zero, as
long as no operand and no running value is beyond two to the 53. The count is then the integer result
itself, and a negative result is out of bounds. The same holds for a distance from the end of the data.
-/

namespace ByteRecord

/-- The integer that an operand stands for in a scope. -/
inductive Operand.StandsFor (scope : Scope) : Operand → Int → Prop
  /-- A count stands for itself. -/
  | count (n : Int64) : StandsFor scope (count n) n.toInt
  /-- A field stands for the JSON integer that it holds. -/
  | field {members : Members} {name : String} {number : Number} {i : Int}
      (inside : scope = some members) (found : members.find? name = some (.number number))
      (integer : number.integer? = some i) : StandsFor scope (field name) i

/-- What an operator makes of two integers. Division is not among them. -/
inductive Operator.Makes : Operator → Int → Int → Int → Prop
  /-- The sum. -/
  | add (i j : Int) : Makes add i j (i + j)
  /-- The difference. -/
  | subtract (i j : Int) : Makes subtract i j (i - j)
  /-- The product. -/
  | multiply (i j : Int) : Makes multiply i j (i * j)

namespace Length

/-- From a running value the terms lead to a total, from left to right, and neither an operand nor a
running value is beyond the bound. -/
inductive Totals (scope : Scope) : Int → List Term → Int → Prop
  /-- Without terms the running value is the total. -/
  | done {i : Int} (small : i.natAbs ≤ integerBound) : Totals scope i [] i
  /-- A term leads to the next running value. -/
  | term {i j k total : Int} {op : Operator} {operand : Operand} {rest : List Term}
      (small : i.natAbs ≤ integerBound) (standsFor : operand.StandsFor scope j)
      (smallOperand : j.natAbs ≤ integerBound) (makes : op.Makes i j k)
      (totals : Totals scope k rest total) : Totals scope i (⟨op, operand⟩ :: rest) total

/-- The integer that a length comes to in a scope, if it does not depend on the position in the data. -/
inductive ComesTo (scope : Scope) : Length → Int → Prop
  /-- A count comes to itself. -/
  | literal {n : Int64} (small : n.toInt.natAbs ≤ integerBound) : ComesTo scope (literal n) n.toInt
  /-- A field comes to the integer that it holds. -/
  | field {name : String} {i : Int} (standsFor : (Operand.field name).StandsFor scope i)
      (small : i.natAbs ≤ integerBound) : ComesTo scope (field name) i
  /-- An expression comes to the total of its terms, from zero. -/
  | expression {terms : List Term} {total : Int} (totals : Totals scope 0 terms total) :
      ComesTo scope (expression terms) total

end Length

variable {scope : Scope}

/-- The number of an operand represents the integer that the operand stands for. -/
theorem Operand.StandsFor.number {operand : Operand} {i : Int} (h : operand.StandsFor scope i)
    (small : i.natAbs ≤ integerBound) : ∃ x, operand.number scope = .ok x ∧ x.Represents i := by
  refine ⟨Binary64.ofInt i, ?_, Binary64.represents_ofInt small⟩
  cases h with
  | count n => rfl
  | field inside found integer =>
    rw [Operand.number, inside, Scope.number, found, ← Number.toBinary64_of_integer integer]

/-- What an operator makes of represented integers is represented. -/
theorem Operator.Makes.represents {op : Operator} {i j k : Int} {x y : Binary64}
    (h : op.Makes i j k) (hx : x.Represents i) (hy : y.Represents j)
    (small : k.natAbs ≤ integerBound) : (op.apply x y).Represents k := by
  cases h with
  | add => exact hx.add hy small
  | subtract => exact hx.sub hy small
  | multiply => exact hx.mul hy small

namespace Length

/-- No running value is beyond the bound, the first one included. -/
theorem Totals.small {terms : List Term} {i total : Int} (h : Totals scope i terms total) :
    i.natAbs ≤ integerBound := by
  cases h with
  | done small => exact small
  | term small => exact small

/-- Whatever represents the running value, the terms lead from it to what represents the total. -/
theorem Totals.evaluateTerms {terms : List Term} {i total : Int} (h : Totals scope i terms total)
    {x : Binary64} (hx : x.Represents i) :
    ∃ y, Length.evaluateTerms scope x terms = .ok y ∧ y.Represents total ∧
      total.natAbs ≤ integerBound := by
  induction h generalizing x with
  | done small => exact ⟨x, rfl, hx, small⟩
  | term small standsFor smallOperand makes totals ih =>
    obtain ⟨z, hoperand, hz⟩ := standsFor.number smallOperand
    rw [Length.evaluateTerms, hoperand]
    exact ih (makes.represents hx hz totals.small)

/-- The number of a length represents the integer that the length comes to. -/
theorem ComesTo.number? {length : Length} {total : Int} (h : length.ComesTo scope total) :
    ∃ x, length.number? scope = some (.ok x) ∧ x.Represents total ∧
      total.natAbs ≤ integerBound := by
  cases h with
  | literal small => exact ⟨_, rfl, Binary64.represents_ofInt small, small⟩
  | field standsFor small =>
    obtain ⟨x, hnumber, hx⟩ := standsFor.number small
    exact ⟨x, congrArg some hnumber, hx, small⟩
  | expression totals =>
    obtain ⟨x, hterms, hx⟩ := totals.evaluateTerms (Binary64.represents_zero false)
    exact ⟨x, congrArg some hterms, hx⟩

/-- An integer that is represented is a count of its own, unless it is negative. -/
theorem count_of_represents (length : Length) {x : Binary64} {i : Int} (hx : x.Represents i)
    (small : i.natAbs ≤ integerBound) :
    length.count x = if 0 ≤ i then .ok i.toNat
      else .error (.invalidCount length.text (Binary64.ofInt i)) := by
  have hone : (0 : Int) < Binary64.format.one := Int.natCast_pos.mpr Binary64.format.one_pos
  by_cases hsign : 0 ≤ i
  · have hscaled : ¬ x.scaled < 0 := by
      rw [hx.scaled_eq, Int.not_lt]
      exact Int.mul_nonneg hsign hone.le
    have hfits : ¬ (wordCount : Int) ≤ i := by
      rw [integerBound] at small
      rw [wordCount]
      omega
    rw [count, hx.finite, hx.truncate_eq, decide_eq_false hscaled, if_pos hsign, if_neg hfits]
    rfl
  · have hscaled : x.scaled < 0 := by
      rw [hx.scaled_eq]
      exact Int.mul_neg_of_neg_of_pos (Int.not_le.mp hsign) hone
    rw [count, hx.finite, decide_eq_true hscaled, if_neg hsign, ← hx.eq_ofInt (by omega)]
    rfl

/-- A length that comes to an integer has this integer as its count, unless it is negative. -/
theorem ComesTo.evaluate_eq {length : Length} {total : Int} (h : length.ComesTo scope total) :
    length.evaluate scope = if 0 ≤ total then .ok (some total.toNat)
      else .error (.bounds (.invalidCount length.text (Binary64.ofInt total))) := by
  obtain ⟨x, hnumber, hx, small⟩ := h.number?
  have hcount := length.count_of_represents hx small
  rw [evaluate, hnumber]
  dsimp only
  by_cases hsign : 0 ≤ total
  · rw [if_pos hsign] at hcount ⊢
    rw [hcount]
  · rw [if_neg hsign] at hcount ⊢
    rw [hcount]

/-- A literal length in the range is a count of its own, in every scope. -/
theorem evaluate_literal {count : Int64} (hsign : ¬ count < 0) (h : count.toInt ≤ integerBound)
    (scope : Scope) : (literal count).evaluate scope = .ok (some count.toInt.toNat) := by
  have hnonneg : 0 ≤ count.toInt := by
    rw [Int64.lt_iff_toInt_lt, Int64.toInt_zero] at hsign
    exact Int.not_lt.mp hsign
  have hsmall : count.toInt.natAbs ≤ integerBound := by omega
  rw [(ComesTo.literal hsmall).evaluate_eq, if_pos hnonneg]

/-- The bytes that remain, less the distance, represent the difference. -/
theorem represents_fromEnd {back : Int64} {k remaining : Nat} (hback : back.toInt = -(k : Int))
    (hk : k ≤ integerBound) (hremaining : remaining < integerBound) :
    (Binary64.ofNat remaining + Binary64.ofInt back.toInt).Represents (remaining - k) := by
  have hx : (Binary64.ofNat remaining).Represents remaining :=
    Binary64.represents_ofNat hremaining.le
  have hy : (Binary64.ofInt back.toInt).Represents (-k) := by
    rw [hback]
    exact Binary64.represents_ofInt (by omega)
  exact hx.add hy (by omega)

/-- A distance from the end is resolved to the count of what remains without it. -/
theorem resolve_of_fromEnd {length : Length} {back : Int64} {remaining : Nat}
    {counted : Except BoundsError Nat} (place : length = fromEnd back) (scope : Scope)
    (hcount : length.count (Binary64.ofNat remaining + Binary64.ofInt back.toInt) = counted) :
    length.resolve scope remaining = (counted.map some).mapError Error.bounds := by
  obtain ⟨result, hresult⟩ : ∃ result, length.resolve scope remaining = result := ⟨_, rfl⟩
  rw [hresult]
  unfold resolve at hresult
  rcases fromEnd_or_of_match (fun length => length.evaluate scope) hresult with
    ⟨other, hother, hback⟩ | ⟨hplace, -⟩
  · have hsame : back = other := fromEnd.inj (place.symm.trans hother)
    rw [← hback, ← hsame, hcount]
    cases counted <;> rfl
  · exact (hplace back place).elim

/-- A length that comes to an integer has this integer as its count. If the integer is negative, the
length is out of bounds instead. A distance from the end of the data is taken away from the bytes that
remain in the same way. -/
theorem evaluate_resolve_exact (scope : Scope) :
    (∀ length total, ComesTo scope length total →
        length.evaluate scope = if 0 ≤ total then .ok (some total.toNat)
          else .error (.bounds (.invalidCount length.text (Binary64.ofInt total))))
      ∧ ∀ (back : Int64) (k remaining : Nat), back.toInt = -(k : Int) → k ≤ integerBound →
          remaining < integerBound →
          (fromEnd back).resolve scope remaining = if k ≤ remaining then .ok (some (remaining - k))
            else .error (.bounds (.invalidCount (fromEnd back).text
              (Binary64.ofInt (remaining - k)))) := by
  refine ⟨fun length total h => h.evaluate_eq, fun back k remaining hback hk hremaining => ?_⟩
  have hcount := (fromEnd back).count_of_represents (represents_fromEnd hback hk hremaining)
    (by omega)
  rw [resolve_of_fromEnd rfl scope hcount]
  by_cases hle : k ≤ remaining
  · have hsign : 0 ≤ (remaining : Int) - k := by omega
    have hdifference : ((remaining : Int) - k).toNat = remaining - k := by omega
    rw [if_pos hle, if_pos hsign, hdifference]
    rfl
  · have hsign : ¬ 0 ≤ (remaining : Int) - k := by omega
    rw [if_neg hle, if_neg hsign]
    rfl

/-- The expression `w - h * 2 + 20`. -/
def negativePartial : List Term :=
  [⟨.add, .field "w"⟩, ⟨.subtract, .field "h"⟩, ⟨.multiply, .count 2⟩, ⟨.add, .count 20⟩]

/-- A width of three and a height of nine, of either signedness. -/
def widthHeight : Scope := some [("w", .number (.unsigned 3)), ("h", .number (.signed 9))]

/-- The running value is `-6` after the difference and `-12` after the product. -/
theorem evaluate_resolve_exact_negativePartial :
    (expression negativePartial).evaluate widthHeight = .ok (some 8)
      ∧ (fromEnd (-2)).resolve widthHeight 5 = .ok (some 3) := by
  have hw : (Operand.field "w").StandsFor widthHeight 3 := .field rfl rfl rfl
  have hh : (Operand.field "h").StandsFor widthHeight 9 := .field rfl rfl rfl
  have htotals : Totals widthHeight 0 negativePartial 8 :=
    .term (by decide) hw (by decide) (.add _ _) <|
    .term (by decide) hh (by decide) (.subtract _ _) <|
    .term (by decide) (.count 2) (by decide) (.multiply _ _) <|
    .term (by decide) (.count 20) (by decide) (.add _ _) <|
    .done (by decide)
  obtain ⟨hevaluate, hresolve⟩ := evaluate_resolve_exact widthHeight
  have hback := hresolve (-2) 2 5 rfl (by decide) (by decide)
  exact ⟨hevaluate _ _ (.expression htotals), hback⟩

end Length

end ByteRecord
