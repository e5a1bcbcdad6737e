import ByteRecord.Proofs.Decode.Failing
import ByteRecord.Proofs.Schema.Extent

/-!
# Decoding a known number of bytes

Some decoding takes the same number of bytes wherever it starts: it matches if so many bytes are
there, whatever they are, and fails for want of bytes otherwise. `Takes` says so, and it goes
through every way of combining outcomes: widths add up along a sequence and multiply along a count.
-/

namespace ByteRecord

/-- Decoding takes `width` bytes wherever it starts. -/
structure Takes {α : Type} (decode : Reader → Outcome α) (width : Nat) : Prop where
  /-- It matches where the bytes are there, and goes behind them. -/
  enough (r : Reader) : width ≤ r.remaining →
    ∃ value, (decode r).Matches value (r.advance width)
  /-- It fails where they are not. -/
  short (r : Reader) : r.remaining < width → ∃ bounds, (decode r).Fails (.bounds bounds)

namespace Takes

variable {α β : Type} {decode : Reader → Outcome α} {width : Nat}

/-- What matches ends behind the bytes that are taken. -/
theorem next_eq (takes : Takes decode width) {r next : Reader} {value : α}
    (h : (decode r).Matches value next) : next = r.advance width := by
  by_cases hroom : width ≤ r.remaining
  · obtain ⟨other, hother⟩ := takes.enough r hroom
    exact (h.unique hother).2
  · obtain ⟨bounds, hfails⟩ := takes.short r (Nat.lt_of_not_le hroom)
    have hverdict := h.1.symm.trans hfails
    cases hverdict

/-- A value without bytes takes none. -/
theorem matched (value : α) : Takes (Outcome.matched value) 0 :=
  ⟨fun _ _ => ⟨value, Outcome.matched_matches⟩, fun _ hroom => absurd hroom (Nat.not_lt_zero _)⟩

/-- A sequence takes what its parts take together. -/
theorem andThen {behind : α → Reader → Outcome β} {rest : Nat} (first : Takes decode width)
    (later : ∀ value, Takes (behind value) rest) :
    Takes (fun r => (decode r).andThen behind) (width + rest) := by
  refine ⟨fun r hroom => ?_, fun r hroom => ?_⟩
  · obtain ⟨value, hvalue⟩ := first.enough r (by omega)
    have hrest : rest ≤ (r.advance width).remaining := by
      rw [Reader.remaining_advance]
      omega
    obtain ⟨result, hresult⟩ := (later value).enough _ hrest
    rw [Reader.advance_advance] at hresult
    exact ⟨result, Outcome.andThen_matches_iff.mpr ⟨value, _, hvalue, hresult⟩⟩
  · by_cases hfirst : width ≤ r.remaining
    · obtain ⟨value, hvalue⟩ := first.enough r hfirst
      have hrest : (r.advance width).remaining < rest := by
        rw [Reader.remaining_advance]
        omega
      obtain ⟨bounds, hfails⟩ := (later value).short _ hrest
      exact ⟨bounds, Outcome.andThen_fails_iff.mpr (Or.inr ⟨value, _, hvalue, hfails⟩)⟩
    · obtain ⟨bounds, hfails⟩ := first.short r (Nat.lt_of_not_le hfirst)
      exact ⟨bounds, Outcome.andThen_fails_iff.mpr (Or.inl hfails)⟩

theorem map (takes : Takes decode width) (f : α → β) :
    Takes (fun r => (decode r).map f) width :=
  takes.andThen fun value => matched (f value)

/-- Reporting an event takes no bytes. -/
theorem noting (takes : Takes decode width) (event : Event) :
    Takes (fun r => (decode r).noting event) width := by
  refine ⟨fun r hroom => ?_, fun r hroom => ?_⟩
  · obtain ⟨value, hvalue⟩ := takes.enough r hroom
    exact ⟨value, Outcome.noting_matches_iff.mpr hvalue⟩
  · obtain ⟨bounds, hfails⟩ := takes.short r hroom
    exact ⟨bounds, Outcome.noting_fails_iff.mpr hfails⟩

/-- A demand that every value meets takes no bytes. -/
theorem demanding (takes : Takes decode width) {admits : α → Bool}
    (free : ∀ value, admits value = true) (event : Reader → α → Event) :
    Takes (fun r => (decode r).demanding admits (event r)) width := by
  refine ⟨fun r hroom => ?_, fun r hroom => ?_⟩
  · obtain ⟨value, hvalue⟩ := takes.enough r hroom
    exact ⟨value, Outcome.demanding_matches_iff.mpr ⟨hvalue, free value⟩⟩
  · obtain ⟨bounds, hfails⟩ := takes.short r hroom
    exact ⟨bounds, Outcome.demanding_fails_iff.mpr hfails⟩

/-- A read takes as many bytes as it passes, if it succeeds wherever these are there. -/
theorem ofRead {read : Reader → Except BoundsError (α × Reader)}
    (passes : ∀ r value next, read r = .ok (value, next) →
      ∃ bytes, r.Passes bytes next ∧ bytes.length = width)
    (succeeds : ∀ r, width ≤ r.remaining → ∃ value next, read r = .ok (value, next)) :
    Takes (fun r => Outcome.ofRead r (read r)) width := by
  refine ⟨fun r hroom => ?_, fun r hroom => ?_⟩
  · obtain ⟨value, next, hread⟩ := succeeds r hroom
    obtain ⟨bytes, hpass, hlength⟩ := passes r value next hread
    have hnext := hpass.eq_advance
    rw [hlength] at hnext
    exact ⟨value, Outcome.ofRead_matches_iff.mpr (hnext ▸ hread)⟩
  · cases hread : read r with
    | error bounds => exact ⟨bounds, Outcome.ofRead_fails_iff.mpr ⟨bounds, rfl, rfl⟩⟩
    | ok result =>
      obtain ⟨bytes, hpass, hlength⟩ := passes r result.1 result.2 hread
      have hle := hpass.length_le
      omega

/-- Bytes that fill a slot are taken behind the value. -/
theorem skipping (takes : Takes decode width) (count : Nat) :
    Takes (fun r => (decode r).skipping count) (width + count) := by
  refine takes.andThen fun value => ?_
  by_cases hcount : count = 0
  · simpa [hcount] using matched value
  · simp only [hcount, if_false]
    refine ofRead ?_ ?_
    · intro r other next hread
      obtain ⟨behind, hskip, hpair⟩ := map_eq_ok_iff.mp hread
      cases hpair
      exact Reader.skip_eq_ok_iff.mp hskip
    · intro r hroom
      have hskip : r.skip count = .ok (r.advance count) :=
        Reader.skip_eq_ok_iff.mpr ⟨_, Reader.passes_advance hroom, List.length_take_of_le hroom⟩
      exact ⟨value, r.advance count, map_eq_ok_iff.mpr ⟨_, hskip, rfl⟩⟩

/-- Elements of the same width take it as often as there are elements. -/
theorem repeated {decode : Reader → Outcome Json} (takes : Takes decode width) (total left : Nat) :
    Takes (Outcome.repeated decode total left) (left * width) := by
  induction left with
  | zero =>
    rw [Nat.zero_mul]
    exact matched []
  | succ left ih =>
    have hsum : (left + 1) * width = width + left * width := by rw [Nat.succ_mul, Nat.add_comm]
    rw [hsum]
    exact (takes.noting _).andThen fun value => ih.map (value :: ·)

/-- A scalar takes its size. -/
theorem scalar (type : ScalarType) (order : Endian) :
    Takes (fun r => Outcome.ofRead r (r.scalar type order)) type.size := by
  refine ofRead ?_ ?_
  · intro r value next hread
    obtain ⟨bytes, hpass, hlength, -⟩ := Reader.scalar_eq_ok_iff.mp hread
    exact ⟨bytes, hpass, hlength⟩
  · intro r hroom
    exact ⟨_, _, Reader.scalar_eq_ok_iff.mpr
      ⟨_, Reader.passes_advance hroom, List.length_take_of_le hroom, rfl⟩⟩

/-- Scalars that are read in one go take the size of each. -/
theorem scalars (type : ScalarType) (order : Endian) (count : Nat) :
    Takes (fun r => Outcome.ofRead r (r.scalars type order count)) (count * type.size) := by
  refine ofRead ?_ ?_
  · intro r value next hread
    obtain ⟨bytes, hpass, hlength, -⟩ := Reader.scalars_eq_ok_iff.mp hread
    exact ⟨bytes, hpass, hlength⟩
  · intro r hroom
    exact ⟨_, _, Reader.scalars_eq_ok_iff.mpr
      ⟨_, Reader.passes_advance hroom, List.length_take_of_le hroom, rfl⟩⟩

theorem fixedText (count : Nat) :
    Takes (fun r => Outcome.ofRead r (r.fixedText count)) count := by
  refine ofRead ?_ ?_
  · intro r text next hread
    exact ⟨text, Reader.fixedText_eq_ok_iff.mp hread⟩
  · intro r hroom
    exact ⟨_, _, Reader.fixedText_eq_ok_iff.mpr
      ⟨Reader.passes_advance hroom, List.length_take_of_le hroom⟩⟩

/-- A text in a slot of a known width takes the slot, wherever its zero byte is. -/
theorem terminatedText {count : Nat} (bounded : count ≠ 0) :
    Takes (fun r => Outcome.ofRead r (r.terminatedText count)) count := by
  refine ofRead ?_ ?_
  · intro r text next hread
    obtain ⟨slot, hpass, hlength, -⟩ := (Reader.terminatedText_eq_ok_iff bounded).mp hread
    exact ⟨slot, hpass, hlength⟩
  · intro r hroom
    exact ⟨_, _, (Reader.terminatedText_eq_ok_iff bounded).mpr
      ⟨_, Reader.passes_advance hroom, List.length_take_of_le hroom, rfl⟩⟩

end Takes

/-- Without a demand every number is admitted. -/
theorem ScalarTag.admits_of_free {tag : ScalarTag} (free : tag.constraint.isSome = false)
    (n : Number) : tag.admits n = true := by
  rw [admits, Option.isNone_iff_eq_none.mp (Option.isSome_eq_false_iff.mp free), Option.all_none]

/-- Without a demand every text is admitted. -/
theorem TextTag.admits_of_free {tag : TextTag} (free : tag.constraint.isSome = false)
    (s : String) : tag.admits s = true := by
  rw [admits, Option.isNone_iff_eq_none.mp (Option.isSome_eq_false_iff.mp free), Option.all_none]

/-- A slot of a known width without a demand takes this width. -/
theorem Tag.takes_decode {tag : Tag} (width : tag.fixedWidth? ≠ none)
    (free : tag.hasConstraint = false) : Takes (fun r => tag.decode r) tag.extent := by
  cases tag with
  | scalar tag =>
    have hslot := ((Takes.scalar tag.type tag.order).map Scalar.toNumber).skipping tag.padding
    exact (hslot.demanding (ScalarTag.admits_of_free free) _).map Json.number
  | string tag =>
    have hslot := (Takes.fixedText tag.paddedTo.toNat).map fieldText
    exact (hslot.demanding (TextTag.admits_of_free free) _).map Json.string
  | cstring tag =>
    have hbounded : tag.paddedTo.toNat ≠ 0 := by
      refine TextTag.toNat_paddedTo_ne_zero fun hzero => width ?_
      rw [fixedWidth?, if_pos hzero]
    have hslot := (Takes.terminatedText hbounded).map fieldText
    exact (hslot.demanding (TextTag.admits_of_free free) _).map Json.string

end ByteRecord
