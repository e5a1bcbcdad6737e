import ByteRecord.Proofs.Decode.Relocation
import ByteRecord.Proofs.Floating.Widening
import ByteRecord.Proofs.Length.Arithmetic
import ByteRecord.Proofs.Length.Rereading

/-!
# Plain lengths count the same

An expression that adds a single operand to zero comes to a number of the same value as the operand, or
to none where the operand is none. It counts what the operand does, so a length that is written and read
again counts the same, and a schema decodes the same with plain lengths in place of its own.
-/

namespace ByteRecord

namespace Binary64

/-- The sum of zero and a number is the number, but for the sign of a zero and the fraction of a NaN. -/
theorem zero_add_cases (x : Binary64) :
    zero false + x = x ∨ (x.isFinite = true ∧ x.scaled = 0 ∧ zero false + x = zero false)
      ∨ (x.isFinite = false ∧ (zero false + x).isFinite = false) := by
  have hadd : zero false + x = (zero false).add x := rfl
  have hscaled : (zero false).scaled = 0 := by decide
  have hnumber : (zero false).isNaN = false := by decide
  have hfinite : (zero false).isFinite = true := by decide
  rw [hadd]
  unfold add
  rw [hnumber, hfinite, Bool.false_or, Bool.true_and]
  by_cases hnan : x.isNaN = true
  · have hlarge : ¬ x.magnitude < format.infinity := by
      have hbound : format.infinity < x.magnitude := of_decide_eq_true hnan
      omega
    rw [if_pos hnan]
    exact Or.inr (Or.inr ⟨decide_eq_false hlarge, by decide⟩)
  · rw [if_neg hnan]
    by_cases hx : x.isFinite = true
    · have hsign : (zero false).negative = false := by decide
      rw [if_pos hx, hscaled, Int.zero_add, hsign, Bool.false_and]
      by_cases hzero : x.scaled = 0
      · rw [roundScaled, if_pos hzero]
        exact Or.inr (Or.inl ⟨hx, hzero, rfl⟩)
      · exact Or.inl (roundScaled_scaled hx hzero false)
    · rw [if_neg hx, if_pos rfl]
      exact Or.inl rfl

end Binary64

namespace Length

/-- Zero of either sign counts nothing. -/
theorem count_of_scaled_eq_zero (length : Length) {x : Binary64} (hx : x.isFinite = true)
    (hzero : x.scaled = 0) : length.count x = .ok 0 := by
  have hx : x.Represents 0 := ⟨hx, by rw [hzero, Int.zero_mul]⟩
  rw [length.count_of_represents hx (Nat.zero_le _), if_pos (Int.le_refl 0), Int.toNat_zero]

/-- A number has the count that its sum with zero has. -/
theorem count_zero_add (length other : Length) (x : Binary64) :
    (∃ n, length.count (Binary64.zero false + x) = .ok n ∧ other.count x = .ok n)
      ∨ ∃ cause cause', length.count (Binary64.zero false + x) = .error cause
          ∧ other.count x = .error cause' := by
  obtain hsum | ⟨hx, hzero, hsum⟩ | ⟨hx, hsum⟩ := Binary64.zero_add_cases x
  · rw [hsum]
    unfold count
    split
    · exact Or.inr ⟨_, _, rfl, rfl⟩
    · split
      · exact Or.inr ⟨_, _, rfl, rfl⟩
      · exact Or.inl ⟨_, rfl, rfl⟩
  · rw [hsum, other.count_of_scaled_eq_zero hx hzero,
      length.count_of_scaled_eq_zero (by decide) (by decide)]
    exact Or.inl ⟨0, rfl, rfl⟩
  · have hlength : length.count (Binary64.zero false + x) = .error _ :=
      if_pos (by rw [hsum]; rfl)
    have hother : other.count x = .error _ := if_pos (by rw [hx]; rfl)
    exact Or.inr ⟨_, _, hlength, hother⟩

/-- A length that comes to a number and one that comes to its sum with zero have the same count. -/
theorem evaluate_zero_add {length other : Length} {scope : Scope} {x : Binary64}
    (hlength : length.number? scope = some (.ok (Binary64.zero false + x)))
    (hother : other.number? scope = some (.ok x)) :
    SameKind (length.evaluate scope) (other.evaluate scope) := by
  unfold evaluate
  rw [hlength, hother]
  dsimp only
  obtain ⟨n, hsum, hx⟩ | ⟨cause, cause', hsum, hx⟩ := count_zero_add length other x
  · rw [hsum, hx]
    exact .ok (some n)
  · rw [hsum, hx]
    exact .error rfl

/-- An expression that adds a single operand to zero has the count of the operand. -/
theorem evaluate_single {operand : Operand} {other : Length} {scope : Scope}
    (h : other.number? scope = some (operand.number scope)) :
    SameKind ((expression [⟨.add, operand⟩]).evaluate scope) (other.evaluate scope) := by
  cases hoperand : operand.number scope with
  | ok x =>
    have hsum : (expression [⟨.add, operand⟩]).number? scope
        = some (.ok (Binary64.zero false + x)) := by
      rw [number?, evaluateTerms, hoperand]
      rfl
    exact evaluate_zero_add hsum (h.trans (congrArg some hoperand))
  | error cause =>
    have hnone : (expression [⟨.add, operand⟩]).number? scope = some (.error cause) := by
      rw [number?, evaluateTerms, hoperand]
      rfl
    unfold evaluate
    rw [hnone, h, hoperand]
    exact .error rfl

/-- Plain lengths that do not depend on the position in the data count the same. -/
theorem evaluate_plain (length : Length) (scope : Scope) :
    SameKind (length.evaluate scope) (length.plain.evaluate scope) := by
  unfold plain
  split
  · rename_i n
    have hnumber : (literal n).number? scope = some ((Operand.count n).number scope) := rfl
    exact evaluate_single hnumber
  · rename_i name
    have hnumber : (field name).number? scope = some ((Operand.field name).number scope) := rfl
    exact evaluate_single hnumber
  · exact .refl _

/-- Plain lengths count the same. -/
theorem keepsCounts_plain : KeepsCounts plain := by
  intro length scope remaining
  have hcount := evaluate_plain length scope
  unfold plain at hcount ⊢
  -- An expression looks at the fields only, and so do the count and the field that it may become.
  split at hcount
  · exact hcount
  · exact hcount
  · exact .refl _

/-- A length that was read from a text is read again from its written form, as one that counts the same
in every scope and wherever the data end: it has the same count, none where the length has none, or an
error of the same kind. -/
theorem ofJson_text_sameKind {s : String} {length : Length}
    (read : ofJson (.string s) = .ok length) :
    ∃ other, ofJson (.string length.text) = .ok other
      ∧ ∀ scope, SameKind (length.evaluate scope) (other.evaluate scope)
        ∧ ∀ remaining, SameKind (length.resolve scope remaining) (other.resolve scope remaining) := by
  have hplace := (readChars_eq_ok_iff.mp read).ne_fromEnd
  exact ⟨length.plain, ofJson_text (wellFormed_of_ofJson read) hplace, fun scope =>
    ⟨length.evaluate_plain scope, keepsCounts_plain length scope⟩⟩

/-- A sum of one field is written without its sign and read as the field. -/
theorem ofJson_text_plusField :
    ∃ other, ofJson (.string "n") = .ok other
      ∧ ∀ scope, SameKind ((expression [⟨.add, .field "n"⟩]).evaluate scope) (other.evaluate scope)
        ∧ ∀ remaining, SameKind ((expression [⟨.add, .field "n"⟩]).resolve scope remaining)
            (other.resolve scope remaining) := by
  have hread : ofJson (.string " + n") = .ok (expression [⟨.add, .field "n"⟩]) := rfl
  exact ofJson_text_sameKind hread

end Length

namespace Node

/-- The schema with plain lengths. -/
def plain (node : Node) : Node := node.mapLengths Length.plain

/-- A schema with plain lengths decodes every record as the schema does. -/
theorem decodeRecord_plain (node : Node) (options : DecodeOptions) (bytes : List UInt8) :
    SameKind (node.decodeRecord options bytes).1 (node.plain.decodeRecord options bytes).1 := by
  by_cases hinside : options.offset ≤ bytes.length
  · have hplace : ((Reader.ofBytes bytes).advance options.offset).within 0 []
        = (Reader.ofBytes bytes).advance options.offset := by
      rw [Reader.within_zero_nil]
    have follows : Outcome.Follows 0 [] _ _ :=
      decode_within Length.keepsCounts_plain node (Or.inl rfl) none
        ((Reader.ofBytes bytes).advance options.offset)
    rw [hplace] at follows
    have hsame := decodeRecord_sameKind hinside hinside (Nat.zero_add _).symm rfl follows
    have hmoved : (fun result : Decoded => result.moved 0) = id :=
      funext fun result => by rw [Decoded.moved, Nat.zero_add, id]
    rwa [hmoved, Except.map_id] at hsame
  · unfold decodeRecord
    rw [if_pos (Nat.not_le.mp hinside), if_pos (Nat.not_le.mp hinside)]
    exact .error rfl

end Node

end ByteRecord
