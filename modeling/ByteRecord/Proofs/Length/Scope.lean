import ByteRecord.Length.Count

/-!
# Lengths in a growing scope

While a struct is decoded, the scope of its array lengths grows by one member after the other. What a
length comes to depends on the numbers of the fields that it reads and on nothing else, so a length
that has a count keeps it in every scope that has the same numbers.
-/

namespace ByteRecord

/-- A name that is present is found at its first place, whatever follows. -/
theorem Members.find?_append_of_eq_some {done added : Members} {name : String} {value : Json}
    (h : done.find? name = some value) : Members.find? (done ++ added) name = some value := by
  rw [Members.find?, List.lookup_append, ← Members.find?, h]
  rfl

/-- A name that is absent is looked for in what follows. -/
theorem Members.find?_append_of_notMem {done added : Members} {name : String}
    (h : name ∉ done.map Prod.fst) : Members.find? (done ++ added) name = added.find? name := by
  have hnone : List.lookup name done = none := by
    rw [List.lookup_eq_none_iff]
    rintro ⟨key, value⟩ hentry
    rw [bne_iff_ne]
    rintro rfl
    exact h (List.mem_map_of_mem hentry)
  rw [Members.find?, List.lookup_append, hnone, Option.none_or, Members.find?]

theorem Members.find?_cons_self (name : String) (value : Json) (rest : Members) :
    Members.find? ((name, value) :: rest) name = some value :=
  List.lookup_cons_self

theorem Members.find?_cons_of_ne {name key : String} {value : Json} {rest : Members}
    (h : name ≠ key) : Members.find? ((key, value) :: rest) name = rest.find? name := by
  rw [Members.find?, List.lookup_cons, beq_false_of_ne h, Members.find?]

theorem Members.find?_eq_none {members : Members} {name : String}
    (h : name ∉ members.map Prod.fst) : members.find? name = none := by
  have happend : Members.find? (members ++ []) name = Members.find? [] name :=
    Members.find?_append_of_notMem h
  rwa [List.append_nil] at happend

/-- A name that occurs among members is found. -/
theorem Members.exists_find? {members : Members} {name : String}
    (h : name ∈ members.map Prod.fst) : ∃ value, members.find? name = some value := by
  cases hfind : members.find? name with
  | some value => exact ⟨value, rfl⟩
  | none =>
    obtain ⟨entry, hentry, rfl⟩ := List.mem_map.mp h
    have hne := List.lookup_eq_none_iff.mp hfind entry hentry
    simp at hne

/-- Where names differ, every member is found. -/
theorem Members.find?_of_nodup {done added : Members} {name : String} {value : Json}
    (h : ((done ++ (name, value) :: added).map Prod.fst).Nodup) :
    Members.find? (done ++ (name, value) :: added) name = some value := by
  rw [List.map_append, List.map_cons, List.nodup_append] at h
  have hnew : name ∉ done.map Prod.fst := by
    intro hmem
    exact h.2.2 name hmem name List.mem_cons_self rfl
  rw [Members.find?_append_of_notMem hnew, Members.find?_cons_self]

/-- Where names differ, every member is the one that its name stands for. -/
theorem Members.find?_of_mem {members : Members} (distinct : (members.map Prod.fst).Nodup)
    {name : String} {value : Json} (h : (name, value) ∈ members) :
    members.find? name = some value := by
  obtain ⟨done, added, rfl⟩ := List.append_of_mem h
  exact Members.find?_of_nodup distinct

namespace Scope

/-- Every field that holds a number in the one scope holds the same number in the other. -/
def Extends (full part : Scope) : Prop :=
  ∀ name x, part.number name = .ok x → full.number name = .ok x

theorem Extends.refl (scope : Scope) : scope.Extends scope := fun _ _ h => h

/-- A field that holds a number is found. -/
theorem number_some_eq_ok_iff {members : Members} {name : String} {x : Binary64} :
    Scope.number (some members) name = .ok x ↔
      ∃ n, members.find? name = some (.number n) ∧ n.toBinary64 = x := by
  unfold number
  cases hfind : members.find? name with
  | none =>
    dsimp only
    rw [hfind]
    simp
  | some value =>
    dsimp only
    rw [hfind]
    cases value <;> simp

/-- Further members change no number that is there. -/
theorem extends_append (done added : Members) :
    Scope.Extends (some (done ++ added)) (some done) := by
  intro name x h
  obtain ⟨n, hfind, hn⟩ := number_some_eq_ok_iff.mp h
  exact number_some_eq_ok_iff.mpr ⟨n, Members.find?_append_of_eq_some hfind, hn⟩

/-- A field that stands before others is read without them. -/
theorem number_append_of_mem {done : Members} (added : Members) {name : String}
    (h : name ∈ done.map Prod.fst) :
    Scope.number (some (done ++ added)) name = Scope.number (some done) name := by
  obtain ⟨value, hfind⟩ := Members.exists_find? h
  unfold number
  dsimp only
  rw [hfind, Members.find?_append_of_eq_some hfind]

end Scope

/-- A field that an operand reads holds the same number in both scopes. -/
theorem Operand.number_of_agree {operand : Operand} {part full : Scope} {x : Binary64}
    (agree : ∀ name, operand.field? = some name → ∀ y, part.number name = .ok y →
      full.number name = .ok y)
    (h : operand.number part = .ok x) : operand.number full = .ok x := by
  cases operand with
  | count n => exact h
  | field name => exact agree name rfl x h

namespace Length

variable {part full : Scope}

/-- Terms come to the same in scopes that give their fields the same numbers. -/
theorem evaluateTerms_of_agree {terms : List Term} {value x : Binary64}
    (agree : ∀ term ∈ terms, ∀ name, term.operand.field? = some name → ∀ y,
      part.number name = .ok y → full.number name = .ok y)
    (h : evaluateTerms part value terms = .ok x) : evaluateTerms full value terms = .ok x := by
  induction terms generalizing value with
  | nil => exact h
  | cons term rest ih =>
    obtain ⟨hfirst, hrest⟩ := List.forall_mem_cons.mp agree
    rw [evaluateTerms] at h ⊢
    cases hoperand : term.operand.number part with
    | error cause =>
      rw [hoperand] at h
      cases h
    | ok y =>
      rw [hoperand] at h
      rw [Operand.number_of_agree hfirst hoperand]
      exact ih hrest h

/-- A length comes to the same count in every scope that gives its fields the same numbers. -/
theorem evaluate_of_agree {length : Length} {count? : Option Nat}
    (agree : ∀ name ∈ length.fields, ∀ y, part.number name = .ok y → full.number name = .ok y)
    (h : length.evaluate part = .ok count?) : length.evaluate full = .ok count? := by
  have hnumber : ∀ x, length.number? part = some (.ok x) → length.number? full = some (.ok x) := by
    intro x hx
    cases length with
    | literal n => exact hx
    | fromEnd n => exact hx
    | remainder => exact hx
    | field name =>
      injection hx with hx
      exact congrArg some (agree name List.mem_cons_self x hx)
    | expression terms =>
      injection hx with hx
      refine congrArg some (evaluateTerms_of_agree ?_ hx)
      intro term hterm name hname
      exact agree name (List.mem_filterMap.mpr ⟨term, hterm, hname⟩)
  unfold evaluate at h ⊢
  cases hpart : length.number? part with
  | none =>
    rw [hpart] at h
    have hnone : length.number? full = none := by
      cases length <;> first | rfl | cases hpart
    rw [hnone]
    exact h
  | some result =>
    cases result with
    | error cause =>
      rw [hpart] at h
      cases h
    | ok x =>
      rw [hpart] at h
      rw [hnumber x hpart]
      exact h

/-- A count stays what it is in a scope that only grows. -/
theorem evaluate_of_extends {length : Length} {count? : Option Nat} (grown : full.Extends part)
    (h : length.evaluate part = .ok count?) : length.evaluate full = .ok count? :=
  evaluate_of_agree (fun name _ x => grown name x) h

/-- Only lengths that depend on the position in the data have no count. -/
theorem eq_of_evaluate_eq_none {length : Length} (h : length.evaluate part = .ok none) :
    length = remainder ∨ ∃ back, length = fromEnd back := by
  unfold evaluate at h
  split at h
  · rename_i hnumber
    cases length with
    | remainder => exact Or.inl rfl
    | fromEnd back => exact Or.inr ⟨back, rfl⟩
    | _ => cases hnumber
  · cases h
  · split at h <;> cases h

/-- A length that has a count is resolved to it wherever the data end. -/
theorem resolve_of_evaluate {length : Length} {remaining count : Nat}
    (h : length.evaluate part = .ok (some count)) :
    length.resolve part remaining = .ok (some count) := by
  cases length with
  | fromEnd back => cases h
  | _ => exact h

/-- What a length is resolved to is its count, unless it depends on the position in the data. -/
theorem evaluate_of_resolve {length : Length} {remaining : Nat} {count? : Option Nat}
    (h : length.resolve part remaining = .ok count?) :
    length.evaluate part = .ok none ∨ length.evaluate part = .ok count? := by
  cases length with
  | fromEnd n => exact Or.inl rfl
  | _ => exact Or.inr h

end Length

end ByteRecord
