import ByteRecord.Proofs.Length.Scope

/-!
# Lengths without a count

A length that cannot be worked out either comes to a number that is no count, or it reads a field
that has no number in the scope. A field that is found in the scope lacks a number only if its value
is none, so no other look-up error is left where every field that is read is there.
-/

namespace ByteRecord

variable {scope part full : Scope} {cause : LookupError}

/-- A field that is found lacks a number only because its value is none. -/
theorem Scope.number_eq_error_of_find? {members : Members} {name : String} {value : Json}
    (hfind : members.find? name = some value)
    (h : Scope.number (some members) name = .error cause) :
    cause = .notNumeric name ∧ ∀ n, value ≠ .number n := by
  unfold number at h
  dsimp only at h
  rw [hfind] at h
  cases value with
  | number n => cases h
  | _ =>
    injection h with h
    exact ⟨h.symm, nofun⟩

/-- An operand without a number is a field without one. -/
theorem Operand.exists_field_of_number_error {operand : Operand}
    (h : operand.number scope = .error cause) :
    ∃ name, operand.field? = some name ∧ scope.number name = .error cause := by
  cases operand with
  | count n => cases h
  | field name => exact ⟨name, rfl, h⟩

theorem Operand.number_congr {operand : Operand}
    (same : ∀ name, operand.field? = some name → part.number name = full.number name) :
    operand.number part = operand.number full := by
  cases operand with
  | count n => rfl
  | field name => exact same name rfl

namespace Length

variable {length : Length} {terms : List Term}

/-- Terms that cannot be worked out read a field without a number. -/
theorem exists_term_of_evaluateTerms_error {value : Binary64}
    (h : evaluateTerms scope value terms = .error cause) :
    ∃ term ∈ terms, ∃ name, term.operand.field? = some name
      ∧ scope.number name = .error cause := by
  induction terms generalizing value with
  | nil => cases h
  | cons term rest ih =>
    rw [evaluateTerms] at h
    cases hoperand : term.operand.number scope with
    | error other =>
      rw [hoperand] at h
      have hother : other = cause := Except.error.inj h
      have hfield := Operand.exists_field_of_number_error hoperand
      exact ⟨term, List.mem_cons_self, hother ▸ hfield⟩
    | ok x =>
      rw [hoperand] at h
      obtain ⟨later, hlater, hname⟩ := ih h
      exact ⟨later, List.mem_cons_of_mem _ hlater, hname⟩

/-- A length that comes to no number reads a field without one. -/
theorem exists_field_of_number?_error (h : length.number? scope = some (.error cause)) :
    ∃ name ∈ length.fields, scope.number name = .error cause := by
  cases length with
  | field name => exact ⟨name, List.mem_cons_self, Option.some.inj h⟩
  | expression terms =>
    have hterms := exists_term_of_evaluateTerms_error (Option.some.inj h)
    obtain ⟨term, hterm, name, hname, hnumber⟩ := hterms
    exact ⟨name, List.mem_filterMap.mpr ⟨term, hterm, hname⟩, hnumber⟩
  | _ => cases h

/-- Terms that read a field without a number cannot be worked out, whatever stands before it. -/
theorem exists_evaluateTerms_error {value : Binary64} {term : Term} {name : String}
    (hterm : term ∈ terms) (hname : term.operand.field? = some name)
    (h : scope.number name = .error cause) :
    ∃ other, evaluateTerms scope value terms = .error other := by
  induction terms generalizing value with
  | nil => cases hterm
  | cons first rest ih =>
    rw [evaluateTerms]
    cases hfirst : first.operand.number scope with
    | error other => exact ⟨other, rfl⟩
    | ok x =>
      rcases List.mem_cons.mp hterm with rfl | hrest
      · have hnumber : term.operand.number scope = scope.number name := by
          cases hoperand : term.operand with
          | count n => simp [hoperand, Operand.field?] at hname
          | field other =>
            simp only [hoperand, Operand.field?, Option.some.injEq] at hname
            rw [hname, Operand.number]
        rw [hnumber, h] at hfirst
        cases hfirst
      · exact ih hrest

/-- A length that reads a field without a number has no count, and a look-up is the reason. -/
theorem exists_evaluate_error {name : String} (hname : name ∈ length.fields)
    (h : scope.number name = .error cause) :
    ∃ other, length.evaluate scope = .error (.schema (.lookup other)) := by
  cases length with
  | field field =>
    obtain rfl : name = field := List.mem_singleton.mp hname
    refine ⟨cause, ?_⟩
    rw [evaluate, number?, h]
  | expression terms =>
    obtain ⟨term, hterm, hfield⟩ := List.mem_filterMap.mp hname
    obtain ⟨other, hother⟩ := exists_evaluateTerms_error hterm hfield h
    refine ⟨other, ?_⟩
    rw [evaluate, number?, hother]
  | _ => cases hname

/-- A length has no count because it comes to a number that is none, or because a field that it
reads has no number. -/
theorem cases_of_evaluate_error {error : Error} (h : length.evaluate scope = .error error) :
    (∃ bounds, error = .bounds bounds)
      ∨ ∃ name ∈ length.fields, ∃ cause, error = .schema (.lookup cause)
          ∧ scope.number name = .error cause := by
  unfold evaluate at h
  cases hnumber : length.number? scope with
  | none =>
    rw [hnumber] at h
    cases h
  | some result =>
    rw [hnumber] at h
    cases result with
    | error cause =>
      obtain ⟨name, hname, hcause⟩ := exists_field_of_number?_error hnumber
      exact Or.inr ⟨name, hname, cause, (Except.error.inj h).symm, hcause⟩
    | ok x =>
      cases hcount : length.count x with
      | error bounds =>
        simp only [hcount, Except.error.injEq] at h
        exact Or.inl ⟨bounds, h.symm⟩
      | ok n => simp [hcount] at h

/-- Whether a length counts from the end decides a match that singles these lengths out. The two
branches stay as they are: unfolding a match whose branch counts would work the count out. -/
theorem fromEnd_or_of_match {α : Type} {f : Int64 → α} (g : Length → α) {a : α}
    (h : (match length with
      | fromEnd back => f back
      | length => g length) = a) :
    (∃ back, length = fromEnd back ∧ f back = a)
      ∨ (∀ back, length ≠ fromEnd back) ∧ g length = a := by
  cases length with
  | fromEnd back => exact Or.inl ⟨back, rfl, h⟩
  | _ => exact Or.inr ⟨nofun, h⟩

/-- What keeps a length from being resolved, which is what keeps it from having a count. -/
theorem cases_of_resolve_error {remaining : Nat} {error : Error}
    (h : length.resolve scope remaining = .error error) :
    (∃ bounds, error = .bounds bounds)
      ∨ ∃ name ∈ length.fields, ∃ cause, error = .schema (.lookup cause)
          ∧ scope.number name = .error cause := by
  unfold resolve at h
  rcases fromEnd_or_of_match (fun length => length.evaluate scope) h with
    ⟨back, -, hback⟩ | ⟨-, hother⟩
  · generalize length.count _ = result at hback
    cases result with
    | error bounds => exact Or.inl ⟨bounds, (Except.error.inj hback).symm⟩
    | ok n => cases hback
  · exact cases_of_evaluate_error hother

/-- Only the rest of the data is resolved to no count. -/
theorem eq_remainder_of_resolve {remaining : Nat}
    (h : length.resolve scope remaining = .ok none) : length = remainder := by
  unfold resolve at h
  rcases fromEnd_or_of_match (fun length => length.evaluate scope) h with
    ⟨back, -, hback⟩ | ⟨hplace, hother⟩
  · generalize length.count _ = result at hback
    cases result <;> cases hback
  · exact (eq_of_evaluate_eq_none hother).resolve_right fun ⟨back, hback⟩ => hplace back hback

theorem evaluateTerms_congr {value : Binary64}
    (same : ∀ term ∈ terms, ∀ name, term.operand.field? = some name →
      part.number name = full.number name) :
    evaluateTerms part value terms = evaluateTerms full value terms := by
  induction terms generalizing value with
  | nil => rfl
  | cons term rest ih =>
    obtain ⟨hfirst, hrest⟩ := List.forall_mem_cons.mp same
    rw [evaluateTerms, evaluateTerms, Operand.number_congr hfirst]
    simp only [ih hrest]

/-- A length comes to the same, count or error, where the fields that it reads do. -/
theorem evaluate_congr (same : ∀ name ∈ length.fields, part.number name = full.number name) :
    length.evaluate part = length.evaluate full := by
  have hnumber : length.number? part = length.number? full := by
    cases length with
    | field name => exact congrArg some (same name List.mem_cons_self)
    | expression terms =>
      refine congrArg some (evaluateTerms_congr fun term hterm name hname => ?_)
      exact same name (List.mem_filterMap.mpr ⟨term, hterm, hname⟩)
    | _ => rfl
  unfold evaluate
  rw [hnumber]

end Length

end ByteRecord
