import ByteRecord.Proofs.Decode.Matching

/-!
# Matches one behind the other

The items of an array are a `Run` of matches of the element, one behind the other; the fields of a
struct are a `FieldRun`, where each field sees those before it. The elements up to the end of the
data are a `Climb`, a run in which every match takes bytes, up to a place where the element
`Stops`: the longest such run.
-/

namespace ByteRecord

/-- Matches one behind the other, with their values. -/
inductive Run (decode : Reader → Outcome Json) : Reader → List Json → Reader → Prop
  /-- There are no further values. -/
  | nil {r : Reader} : Run decode r [] r
  /-- A match, and the matches behind it. -/
  | cons {r mid next : Reader} {value : Json} {values : List Json}
      (first : (decode r).Matches value mid) (rest : Run decode mid values next) :
      Run decode r (value :: values) next

/-- Matches of fields one behind the other. Each field sees the members that are done before it;
`added` are the members that the fields contribute. -/
inductive FieldRun : Members → List (String × Node) → Reader → Members → Reader → Prop
  /-- There are no further fields. -/
  | nil {done : Members} {r : Reader} : FieldRun done [] r [] r
  /-- A match of a field, and the matches behind it. -/
  | cons {done added : Members} {name : String} {node : Node} {fields : List (String × Node)}
      {r mid next : Reader} {value : Json}
      (first : (node.decode (some done) r).Matches value mid)
      (rest : FieldRun (done ++ [(name, value)]) fields mid added next) :
      FieldRun done ((name, node) :: fields) r ((name, value) :: added) next

/-- Matches one behind the other, each of which takes bytes. -/
inductive Climb (decode : Reader → Outcome Json) : Reader → List Json → Reader → Prop
  /-- There are no further values. -/
  | nil {r : Reader} : Climb decode r [] r
  /-- A match that takes bytes, and the matches behind it. -/
  | cons {r mid next : Reader} {value : Json} {values : List Json}
      (first : (decode r).Matches value mid) (forward : r.offset < mid.offset)
      (rest : Climb decode mid values next) : Climb decode r (value :: values) next

/-- No further value is taken here: the data ends, or what follows does not match, or it matches
without taking a byte. -/
def Stops (decode : Reader → Outcome Json) (r : Reader) : Prop :=
  r.atEnd = true ∨ (decode r).verdict = .noMatch ∨ ∃ value, (decode r).Matches value r

/-- Every match goes forward over bytes. -/
def GoesForward (decode : Reader → Outcome Json) : Prop :=
  ∀ r value next, (decode r).Matches value next → ∃ bytes, r.Passes bytes next

variable {decode : Reader → Outcome Json} {r mid next : Reader} {value : Json} {values : List Json}

/-- Every value of a run is a match of its own. -/
theorem Run.forall_mem {p : Json → Prop} (run : Run decode r values next)
    (hp : ∀ r value next, (decode r).Matches value next → p value) :
    ∀ value ∈ values, p value := by
  induction run with
  | nil => exact List.forall_mem_nil p
  | cons first rest ih => exact List.forall_mem_cons.mpr ⟨hp _ _ _ first, ih⟩

/-- A run goes forward if each of its matches does. -/
theorem Run.passes (run : Run decode r values next) (forward : GoesForward decode) :
    ∃ bytes, r.Passes bytes next := by
  induction run with
  | nil => exact ⟨[], Reader.passes_nil _⟩
  | cons first rest ih =>
    obtain ⟨before, hbefore⟩ := forward _ _ _ first
    obtain ⟨behind, hbehind⟩ := ih
    exact ⟨before ++ behind, hbefore.append hbehind⟩

/-- Fields go forward if each of them does. -/
theorem FieldRun.passes {done added : Members} {fields : List (String × Node)}
    (run : FieldRun done fields r added next)
    (forward : ∀ field ∈ fields, ∀ scope, GoesForward (field.2.decode scope)) :
    ∃ bytes, r.Passes bytes next := by
  induction run with
  | nil => exact ⟨[], Reader.passes_nil _⟩
  | cons first rest ih =>
    obtain ⟨hfirst, hrest⟩ := List.forall_mem_cons.mp forward
    obtain ⟨before, hbefore⟩ := hfirst _ _ _ _ first
    obtain ⟨behind, hbehind⟩ := ih hrest
    exact ⟨before ++ behind, hbefore.append hbehind⟩

/-- The members of a run of fields are named as the fields are. -/
theorem FieldRun.names_eq {done added : Members} {fields : List (String × Node)}
    (run : FieldRun done fields r added next) :
    added.map Prod.fst = fields.map Prod.fst := by
  induction run with
  | nil => rfl
  | cons first rest ih => rw [List.map_cons, List.map_cons, ih]

/-- Matches that each take bytes are a run. -/
theorem Climb.run (climb : Climb decode r values next) : Run decode r values next := by
  induction climb with
  | nil => exact .nil
  | cons first _ _ ih => exact .cons first ih

/-- Every value of a climb takes a byte. -/
theorem Climb.length_le (climb : Climb decode r values next) :
    r.offset + values.length ≤ next.offset := by
  induction climb with
  | nil => exact Nat.le_refl _
  | cons first forward rest ih =>
    rw [List.length_cons]
    omega

/-- A climb has no more values than there are bytes. -/
theorem Climb.length_le_remaining (climb : Climb decode r values next)
    (forward : GoesForward decode) : values.length ≤ r.remaining := by
  obtain ⟨bytes, hpass⟩ := climb.run.passes forward
  have hlength := climb.length_le
  have hoffset := hpass.offset
  have hroom := hpass.length_le
  omega

namespace Outcome

/-- So many elements match exactly if they form a run. -/
theorem repeated_matches_iff {total left : Nat} :
    (repeated decode total left r).Matches values next ↔
      Run decode r values next ∧ values.length = left := by
  induction left generalizing r values with
  | zero =>
    rw [repeated, matched_matches_iff]
    constructor
    · rintro ⟨rfl, rfl⟩
      exact ⟨.nil, rfl⟩
    · rintro ⟨run, hlen⟩
      cases run with
      | nil => exact ⟨rfl, rfl⟩
      | cons first rest => cases hlen
  | succ left ih =>
    rw [repeated, andThen_matches_iff]
    constructor
    · rintro ⟨value, mid, hfirst, hrest⟩
      obtain ⟨later, hlater, rfl⟩ := map_matches_iff.mp hrest
      obtain ⟨run, hlen⟩ := ih.mp hlater
      exact ⟨.cons (noting_matches_iff.mp hfirst) run, by rw [List.length_cons, hlen]⟩
    · rintro ⟨run, hlen⟩
      cases run with
      | nil => cases hlen
      | cons first rest =>
        rw [List.length_cons, Nat.add_right_cancel_iff] at hlen
        exact ⟨_, _, noting_matches_iff.mpr first,
          map_matches_iff.mpr ⟨_, ih.mpr ⟨rest, hlen⟩, rfl⟩⟩

/-- At the end of the data there are no elements. -/
theorem repeatedToEnd_of_atEnd (atEnd : r.atEnd = true) :
    repeatedToEnd decode r = matched [] r := by
  rw [repeatedToEnd, if_pos atEnd]

/-- In front of what does not match there are no elements. -/
theorem repeatedToEnd_of_noMatch (more : ¬ r.atEnd = true) (noMatch : (decode r).verdict = .noMatch) :
    repeatedToEnd decode r = ⟨.matched [], r, (decode r).trace⟩ := by
  rw [repeatedToEnd, if_neg more]
  simp only [noMatch]

/-- The elements fail where the next one fails. -/
theorem repeatedToEnd_of_failed {cause : Error} (more : ¬ r.atEnd = true)
    (failed : (decode r).verdict = .failed cause) :
    repeatedToEnd decode r = ⟨.failed cause, (decode r).reader, (decode r).trace⟩ := by
  rw [repeatedToEnd, if_neg more]
  simp only [failed]

/-- An element that takes no bytes is not one of the elements up to the end of the data. -/
theorem repeatedToEnd_of_idle (more : ¬ r.atEnd = true) (first : (decode r).Matches value mid)
    (idle : r.remaining ≤ mid.remaining) :
    repeatedToEnd decode r = ⟨.matched [], mid, (decode r).trace⟩ := by
  obtain ⟨hmatch, rfl⟩ := first
  have hidle : ¬ (decode r).reader.rest.length < r.rest.length := Nat.not_lt_of_le idle
  rw [repeatedToEnd, if_neg more]
  simp only [hmatch, if_neg hidle]

/-- An element that takes bytes is followed by the elements behind it. -/
theorem repeatedToEnd_of_shorter (first : (decode r).Matches value mid)
    (shorter : mid.remaining < r.remaining) :
    (repeatedToEnd decode r).verdict = ((repeatedToEnd decode mid).map (value :: ·)).verdict
      ∧ (repeatedToEnd decode r).reader = ((repeatedToEnd decode mid).map (value :: ·)).reader := by
  have hmore : ¬ r.atEnd = true := by
    rw [Reader.atEnd, List.isEmpty_iff_length_eq_zero]
    exact Nat.ne_zero_of_lt shorter
  obtain ⟨hmatch, rfl⟩ := first
  have hshorter : (decode r).reader.rest.length < r.rest.length := shorter
  rw [repeatedToEnd, if_neg hmore]
  simp only [hmatch, if_pos hshorter, and_self]

theorem repeatedToEnd_matches_of_shorter (first : (decode r).Matches value mid)
    (shorter : mid.remaining < r.remaining) :
    (repeatedToEnd decode r).Matches values next ↔
      ∃ later, (repeatedToEnd decode mid).Matches later next ∧ value :: later = values := by
  obtain ⟨hverdict, hreader⟩ := repeatedToEnd_of_shorter first shorter
  rw [← map_matches_iff, Matches, hverdict, hreader]
  rfl

/-- Where no further value is taken, there are no elements up to the end of the data. -/
theorem repeatedToEnd_of_stops (stops : Stops decode r) :
    (repeatedToEnd decode r).Matches [] r := by
  by_cases hend : r.atEnd = true
  · rw [repeatedToEnd_of_atEnd hend]
    exact matched_matches
  · rcases stops with habsurd | hnone | ⟨value, hidle⟩
    · exact absurd habsurd hend
    · rw [repeatedToEnd_of_noMatch hend hnone]
      exact matched_matches
    · rw [repeatedToEnd_of_idle hend hidle (Nat.le_refl _)]
      exact matched_matches

/-- Up to the end of the data there are elements only where no further value is taken, or where one
takes bytes. -/
theorem stops_or_forward_of_repeatedToEnd (forward : GoesForward decode)
    (h : (repeatedToEnd decode r).Matches values next) :
    Stops decode r ∨ ∃ value mid, (decode r).Matches value mid ∧ r.offset < mid.offset := by
  by_cases hend : r.atEnd = true
  · exact Or.inl (Or.inl hend)
  cases hverdict : (decode r).verdict with
  | noMatch => exact Or.inl (Or.inr (Or.inl hverdict))
  | failed cause =>
    rw [repeatedToEnd_of_failed hend hverdict] at h
    cases h.1
  | matched value =>
    have hfirst : (decode r).Matches value (decode r).reader := ⟨hverdict, rfl⟩
    obtain ⟨bytes, hbytes⟩ := forward _ _ _ hfirst
    cases bytes with
    | nil => exact Or.inl (Or.inr (Or.inr ⟨value, hverdict, hbytes.eq_advance⟩))
    | cons byte bytes =>
      refine Or.inr ⟨value, _, hfirst, ?_⟩
      rw [hbytes.offset, List.length_cons]
      omega

/-- The elements up to the end of the data match exactly if they are a climb to a place where no
further value is taken. -/
theorem repeatedToEnd_matches_iff (forward : GoesForward decode) :
    (repeatedToEnd decode r).Matches values next ↔
      Climb decode r values next ∧ Stops decode next := by
  have hshorter : ∀ {r value mid}, (decode r).Matches value mid → r.offset < mid.offset →
      mid.remaining < r.remaining := by
    intro r value mid hfirst hoffset
    obtain ⟨bytes, hbytes⟩ := forward _ _ _ hfirst
    have hplace := hbytes.offset
    have hremaining := hbytes.remaining
    omega
  constructor
  · intro h
    induction hsize : r.remaining using Nat.strongRecOn generalizing r values with
    | ind size ih =>
      rcases stops_or_forward_of_repeatedToEnd forward h with
        hstops | ⟨value, mid, hfirst, hoffset⟩
      · obtain ⟨rfl, rfl⟩ := h.unique (repeatedToEnd_of_stops hstops)
        exact ⟨.nil, hstops⟩
      · have hless := hshorter hfirst hoffset
        obtain ⟨later, hlater, rfl⟩ := (repeatedToEnd_matches_of_shorter hfirst hless).mp h
        obtain ⟨climb, hstops⟩ := ih _ (hsize ▸ hless) hlater rfl
        exact ⟨.cons hfirst hoffset climb, hstops⟩
  · rintro ⟨climb, stops⟩
    induction climb with
    | nil => exact repeatedToEnd_of_stops stops
    | cons first hoffset rest ih =>
      exact (repeatedToEnd_matches_of_shorter first (hshorter first hoffset)).mpr
        ⟨_, ih stops, rfl⟩

end Outcome

end ByteRecord
