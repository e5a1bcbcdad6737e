import ByteRecord.Proofs.Decode.Failing
import ByteRecord.Proofs.Decode.Locality
import ByteRecord.Proofs.Decode.Taking
import ByteRecord.Proofs.Json.Equality
import ByteRecord.Schema.Compile

/-!
# Arrays that are counted beyond the data

Items that take bytes are no more than there are bytes, so an array whose count is larger can match
only by way of an element that takes none. Where decoding comes to such an element, nothing stops
it: the same element matches in the same place again, as often as the count says. Where it does not,
a count beyond the data ends at an element that does not match, or in an error.
-/

namespace ByteRecord

variable {decode : Reader → Outcome Json} {r mid next : Reader} {value : Json}
  {first second values : List Json}

/-- Decoding elements one behind the other comes to a place where one matches without taking a byte.
Those before it take bytes. -/
def Idles (decode : Reader → Outcome Json) (r : Reader) : Prop :=
  ∃ items mid value, Climb decode r items mid ∧ (decode mid).Matches value mid

/-- Runs one behind the other are a run. -/
theorem Run.append (before : Run decode r first mid) (behind : Run decode mid second next) :
    Run decode r (first ++ second) next := by
  induction before with
  | nil => exact behind
  | cons head rest ih => exact .cons head (ih behind)

/-- What matches without taking a byte matches as often as one likes. -/
theorem run_replicate (idle : (decode r).Matches value r) (count : Nat) :
    Run decode r (List.replicate count value) r := by
  induction count with
  | zero => exact .nil
  | succ count ih => exact .cons idle ih

/-- A run whose matches do not all take bytes comes to one that takes none. -/
theorem Run.climb_or_idles (run : Run decode r values next) (forward : GoesForward decode) :
    Climb decode r values next ∨ Idles decode r := by
  induction run with
  | nil => exact Or.inl .nil
  | cons head rest ih =>
    obtain ⟨bytes, hbytes⟩ := forward _ _ _ head
    cases bytes with
    | nil =>
      rw [hbytes.eq_advance] at head
      exact Or.inr ⟨[], _, _, .nil, head⟩
    | cons byte bytes =>
      have hforward := hbytes.offset
      rw [List.length_cons] at hforward
      rcases ih with climb | ⟨items, mid, value, climb, idle⟩
      · exact Or.inl (.cons head (by omega) climb)
      · exact Or.inr ⟨_ :: items, mid, value, .cons head (by omega) climb, idle⟩

/-- Elements that take at least a byte never idle. -/
theorem Takes.not_idles {width : Nat} (takes : Takes decode width) (pos : 0 < width) :
    ¬ Idles decode r := by
  rintro ⟨items, mid, value, -, idle⟩
  have hoffset := congrArg Reader.offset (takes.next_eq idle)
  rw [Reader.advance] at hoffset
  dsimp only at hoffset
  omega

namespace Node

variable {scope : Scope} {element : Node} {length : Length} {count : Nat}

/-- Decoding an array ends before it is complete. Behind elements that take bytes there is one that does
not match, so that the array does not match either; or the array fails, for want of bytes or as such
an element does. -/
def EndsEarly (element : Node) (length : Length) (scope : Scope) (r : Reader) : Prop :=
  (((array element length).decode scope r).verdict = .noMatch
      ∧ ∃ items mid, Climb (element.decode scope) r items mid
        ∧ (element.decode scope mid).verdict = .noMatch)
    ∨ ∃ cause, ((array element length).decode scope r).Fails cause
      ∧ ((∃ bounds, cause = .bounds bounds)
        ∨ ∃ items mid, Climb (element.decode scope) r items mid
          ∧ (element.decode scope mid).Fails cause)

/-- A counted array that does not match ends early, if no element idles. -/
theorem endsEarly_of_not_matches (hcount : length.resolve scope r.remaining = .ok (some count))
    (never : ¬ Idles (element.decode scope) r)
    (refused : ∀ value next, ¬ ((array element length).decode scope r).Matches value next) :
    EndsEarly element length scope r := by
  have hclimb : ∀ {items mid}, Run (element.decode scope) r items mid →
      Climb (element.decode scope) r items mid := fun run =>
    (run.climb_or_idles (element.decode_goesForward scope)).resolve_right never
  cases hverdict : ((array element length).decode scope r).verdict with
  | matched value => exact absurd ⟨hverdict, rfl⟩ (refused value _)
  | failed cause =>
    refine Or.inr ⟨cause, hverdict, ?_⟩
    rcases cases_of_decode_array_fails hverdict with
      hresolve | hbounds | ⟨items, mid, run, hnext⟩
    · rw [hcount] at hresolve
      cases hresolve
    · exact Or.inl hbounds
    · exact Or.inr ⟨items, mid, hclimb run, hnext⟩
  | noMatch =>
    refine Or.inl ⟨hverdict, ?_⟩
    rw [decode, hcount] at hverdict
    dsimp only at hverdict
    split at hverdict
    · exact absurd (Outcome.map_noMatch_iff.mp hverdict) Outcome.ofRead_ne_noMatch
    · obtain ⟨items, mid, run, -, hnext⟩ :=
        Outcome.repeated_noMatch_iff.mp (Outcome.map_noMatch_iff.mp hverdict)
      exact ⟨items, mid, hclimb run, hnext⟩

/-- Where decoding comes to an element that takes no byte, a count beyond the data is made up of as many
matches of it as are missing. -/
theorem counted_matches_of_idle (hcount : length.resolve scope r.remaining = .ok (some count))
    (past : r.remaining < count) (climb : Climb (element.decode scope) r values mid)
    (idle : (element.decode scope mid).Matches value mid) :
    ((array element length).decode scope r).Matches
      (.array (values ++ List.replicate (count - values.length) value)) mid := by
  have hlength := climb.length_le_remaining (element.decode_goesForward scope)
  refine (decode_counted_matches_iff hcount).mpr ⟨_, rfl, ?_, ?_⟩
  · exact climb.run.append (run_replicate idle _)
  · rw [List.length_append, List.length_replicate]
    omega

/-- A count beyond the data matches only by way of an element that takes no byte. -/
theorem idles_of_counted_matches (hcount : length.resolve scope r.remaining = .ok (some count))
    (past : r.remaining < count) (h : ((array element length).decode scope r).Matches value next) :
    Idles (element.decode scope) r := by
  have hforward := element.decode_goesForward scope
  obtain ⟨items, rfl, run, hlength⟩ := (decode_counted_matches_iff hcount).mp h
  rcases run.climb_or_idles hforward with climb | hidles
  · have hbound := climb.length_le_remaining hforward
    omega
  · exact hidles

/-- A counted array has no more items than there are bytes, and a count beyond the data is refused,
exactly if decoding does not come to an element that matches without taking a byte. Where it does,
that element makes up for all items that are missing. Where it does not, decoding ends early. -/
theorem decode_past_data (hcount : length.resolve scope r.remaining = .ok (some count)) :
    ((∀ items next, ((array element length).decode scope r).Matches (.array items) next →
        items.length ≤ r.remaining) ↔
      (r.remaining < count → ¬ Idles (element.decode scope) r))
    ∧ (r.remaining < count →
      ((∀ value next, ¬ ((array element length).decode scope r).Matches value next) ↔
        ¬ Idles (element.decode scope) r)
      ∧ (∀ items mid value, Climb (element.decode scope) r items mid →
        (element.decode scope mid).Matches value mid →
          ((array element length).decode scope r).Matches
            (.array (items ++ List.replicate (count - items.length) value)) mid)
      ∧ (¬ Idles (element.decode scope) r → EndsEarly element length scope r)) := by
  have hidle : r.remaining < count → Idles (element.decode scope) r →
      ∃ items next, ((array element length).decode scope r).Matches (.array items) next
        ∧ items.length = count := by
    rintro past ⟨items, mid, value, climb, idle⟩
    have hmatch := counted_matches_of_idle hcount past climb idle
    have hbound := climb.length_le_remaining (element.decode_goesForward scope)
    refine ⟨_, mid, hmatch, ?_⟩
    rw [List.length_append, List.length_replicate]
    omega
  have hrefused : r.remaining < count → ¬ Idles (element.decode scope) r →
      ∀ value next, ¬ ((array element length).decode scope r).Matches value next :=
    fun past never value next hmatch => never (idles_of_counted_matches hcount past hmatch)
  refine ⟨⟨fun few past idles => ?_, fun never items next hmatch => ?_⟩,
    fun past => ⟨⟨fun refused idles => ?_, hrefused past⟩,
      fun items mid value => counted_matches_of_idle hcount past,
      fun never => endsEarly_of_not_matches hcount never (hrefused past never)⟩⟩
  · obtain ⟨items, next, hmatch, hlength⟩ := hidle past idles
    have hbound := few items next hmatch
    omega
  · by_contra hmany
    obtain ⟨found, hfound, -, hlength⟩ := (decode_counted_matches_iff hcount).mp hmatch
    obtain rfl : items = found := Json.array.inj hfound
    have past : r.remaining < count := by omega
    exact hrefused past (never past) _ next hmatch
  · obtain ⟨items, next, hmatch, -⟩ := hidle past idles
    exact refused _ next hmatch

/-- The schema of a byte. -/
def byteNode : Node := leaf (.scalar ⟨.uint8, .big, 0, none⟩)

/-- Three bytes are not decoded from two. -/
theorem decode_past_data_bytes :
    (∀ value next, ¬ ((array byteNode (.literal 3)).decode none ⟨0, [7, 8]⟩).Matches value next)
      ∧ EndsEarly byteNode (.literal 3) none ⟨0, [7, 8]⟩ := by
  have hcount : (Length.literal 3).resolve none (Reader.mk 0 [7, 8]).remaining = .ok (some 3) :=
    eq_ok_of_toOption (by decide +kernel)
  have htakes : Takes (byteNode.decode none) 1 := by
    rw [byteNode, decode_leaf]
    exact Tag.takes_decode (by decide) rfl
  have hnever : ¬ Idles (byteNode.decode none) ⟨0, [7, 8]⟩ := htakes.not_idles (by decide)
  obtain ⟨hrefused, -, hends⟩ := (decode_past_data hcount).2 (by decide)
  exact ⟨hrefused.mpr hnever, hends hnever⟩

/-- Describes as many texts without bytes as a number says. -/
def emptyTextsDescription : Json :=
  .object [("n", .string "uint8"), ("xs", .array [.string "string:0", .string "n"])]

/-- The schema of that description. -/
def emptyTextsNode : Node :=
  struct [("n", leaf (.scalar ⟨.uint8, .big, 0, none⟩)),
    ("xs", array (leaf (.string ⟨0, none⟩)) (.field "n"))]

/-- Five texts are decoded behind the last byte. -/
theorem decode_past_data_empty :
    compile emptyTextsDescription = .ok emptyTextsNode
      ∧ (Length.field "n").resolve (some [("n", .number (.unsigned 5))]) 0 = .ok (some 5)
      ∧ ((array (leaf (.string ⟨0, none⟩)) (.field "n")).decode
          (some [("n", .number (.unsigned 5))]) ⟨1, []⟩).Matches
          (.array (List.replicate 5 (.string ""))) ⟨1, []⟩
      ∧ (emptyTextsNode.decodeRecord ⟨0, true, ""⟩ [5]).1
        = .ok ⟨some (.object [("n", .number (.unsigned 5)),
          ("xs", .array (List.replicate 5 (.string "")))]), 1, 1⟩ := by
  have hcount : (Length.field "n").resolve (some [("n", .number (.unsigned 5))])
      (Reader.mk 1 []).remaining = .ok (some 5) := eq_ok_of_toOption (by decide +kernel)
  have hidle : ((leaf (.string ⟨0, none⟩)).decode (some [("n", .number (.unsigned 5))])
      ⟨1, []⟩).Matches (.string "") ⟨1, []⟩ := ⟨rfl, rfl⟩
  exact ⟨rfl, hcount, counted_matches_of_idle hcount (by decide) .nil hidle,
    eq_ok_of_toOption (by decide +kernel)⟩

end Node

end ByteRecord
