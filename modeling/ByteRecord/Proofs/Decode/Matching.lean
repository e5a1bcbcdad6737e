import ByteRecord.Decode.Outcome
import ByteRecord.Decode.Basic
import ByteRecord.Proofs.Decode.Passing

/-!
# What matches

`Outcome.Matches` says that an outcome is a match, with its value and the place behind it. Each way
of combining outcomes has one lemma that says when the combination matches, so that a match of a
whole is taken apart without looking into the definitions. For a slot, `Tag.Spells` is the relation
between its bytes and its value that does not depend on what surrounds the slot.
-/

namespace ByteRecord

namespace Outcome

variable {α β : Type}

/-- The outcome is a match with the given value, and the reader is left at the given place. -/
def Matches (o : Outcome α) (value : α) (next : Reader) : Prop :=
  o.verdict = .matched value ∧ o.reader = next

variable {o : Outcome α} {value : α} {r next : Reader}

/-- An outcome is a match in one way only. -/
theorem Matches.unique {other : α} {last : Reader} (h : o.Matches value next)
    (h' : o.Matches other last) : value = other ∧ next = last := by
  obtain ⟨hvalue, hnext⟩ := h
  obtain ⟨hother, hlast⟩ := h'
  exact ⟨Verdict.matched.inj (hvalue.symm.trans hother), hnext.symm.trans hlast⟩

theorem matched_matches : (matched value r).Matches value r := ⟨rfl, rfl⟩

theorem matched_matches_iff {other : α} :
    (matched other r).Matches value next ↔ other = value ∧ r = next := by
  constructor
  · rintro ⟨h, rfl⟩
    exact ⟨by injection h, rfl⟩
  · rintro ⟨rfl, rfl⟩
    exact matched_matches

/-- A sequence matches if its first part does and then the second. -/
theorem andThen_matches_iff {f : α → Reader → Outcome β} {result : β} :
    (o.andThen f).Matches result next ↔
      ∃ value mid, o.Matches value mid ∧ (f value mid).Matches result next := by
  obtain ⟨verdict, place, trace⟩ := o
  cases verdict with
  | matched value =>
    constructor
    · intro h
      exact ⟨value, place, ⟨rfl, rfl⟩, h⟩
    · rintro ⟨other, mid, ⟨hv, rfl⟩, h⟩
      injection hv with hv
      subst hv
      exact h
  | noMatch =>
    constructor
    · rintro ⟨h, -⟩
      cases h
    · rintro ⟨other, mid, ⟨hv, -⟩, -⟩
      cases hv
  | failed cause =>
    constructor
    · rintro ⟨h, -⟩
      cases h
    · rintro ⟨other, mid, ⟨hv, -⟩, -⟩
      cases hv

theorem map_matches_iff {f : α → β} {result : β} :
    (o.map f).Matches result next ↔ ∃ value, o.Matches value next ∧ f value = result := by
  unfold map
  rw [andThen_matches_iff]
  constructor
  · rintro ⟨value, mid, h, hf⟩
    obtain ⟨rfl, rfl⟩ := matched_matches_iff.mp hf
    exact ⟨value, h, rfl⟩
  · rintro ⟨value, h, rfl⟩
    exact ⟨value, next, h, matched_matches⟩

/-- Changing the value leaves the reader where it is. -/
@[simp] theorem reader_map (f : α → β) : (o.map f).reader = o.reader := by
  obtain ⟨verdict, place, trace⟩ := o
  cases verdict <;> rfl

/-- Reporting an event changes no match. -/
theorem noting_matches_iff {event : Event} :
    (o.noting event).Matches value next ↔ o.Matches value next := by
  obtain ⟨verdict, place, trace⟩ := o
  cases verdict with
  | matched value => exact Iff.rfl
  | noMatch =>
    constructor
    · rintro ⟨h, -⟩
      cases h
    · rintro ⟨h, -⟩
      cases h
  | failed cause => exact Iff.rfl

/-- A demand is met by every value that matches. -/
theorem demanding_matches_iff {admits : α → Bool} {event : α → Event} :
    (o.demanding admits event).Matches value next ↔ o.Matches value next ∧ admits value = true := by
  unfold demanding
  rw [andThen_matches_iff]
  constructor
  · rintro ⟨other, mid, h, hdemand⟩
    split at hdemand
    · rename_i hadmits
      obtain ⟨rfl, rfl⟩ := matched_matches_iff.mp hdemand
      exact ⟨h, hadmits⟩
    · obtain ⟨hv, -⟩ := hdemand
      cases hv
  · rintro ⟨h, hadmits⟩
    exact ⟨value, next, h, by rw [if_pos hadmits]; exact matched_matches⟩

theorem ofRead_matches_iff {read : Except BoundsError (α × Reader)} :
    (ofRead r read).Matches value next ↔ read = .ok (value, next) := by
  cases read with
  | error cause =>
    constructor
    · rintro ⟨h, -⟩
      cases h
    · intro h
      cases h
  | ok result =>
    obtain ⟨other, mid⟩ := result
    rw [ofRead, matched_matches_iff]
    constructor
    · rintro ⟨rfl, rfl⟩
      rfl
    · intro h
      injection h with h
      injection h with hv hr
      exact ⟨hv, hr⟩

/-- Bytes that fill a slot behind its value are passed over. -/
theorem skipping_matches_iff {count : Nat} :
    (o.skipping count).Matches value next ↔
      ∃ mid fill, o.Matches value mid ∧ mid.Passes fill next ∧ fill.length = count := by
  unfold skipping
  rw [andThen_matches_iff]
  constructor
  · rintro ⟨other, mid, h, hskip⟩
    split at hskip
    · rename_i hcount
      obtain ⟨rfl, rfl⟩ := matched_matches_iff.mp hskip
      exact ⟨mid, [], h, mid.passes_nil, hcount.symm⟩
    · rw [ofRead_matches_iff] at hskip
      obtain ⟨behind, hread, hpair⟩ := map_eq_ok_iff.mp hskip
      cases hpair
      obtain ⟨fill, hfill⟩ := Reader.skip_eq_ok_iff.mp hread
      exact ⟨mid, fill, h, hfill⟩
  · rintro ⟨mid, fill, h, hpass, hlen⟩
    refine ⟨value, mid, h, ?_⟩
    split
    · rename_i hcount
      rw [hcount, List.length_eq_zero_iff] at hlen
      rw [hlen] at hpass
      rw [matched_matches_iff]
      exact ⟨rfl, by rw [hpass.eq_advance]; rfl⟩
    · rw [ofRead_matches_iff, Reader.skip_eq_ok_iff.mpr ⟨fill, hpass, hlen⟩]
      rfl

end Outcome

/-- The bytes of a slot spell a value that meets the demand of the tag. -/
inductive Tag.Spells : Tag → List UInt8 → Json → Prop
  /-- A scalar stands in front of the bytes that fill its slot. -/
  | scalar {tag : ScalarTag} {content fill : List UInt8}
      (width : content.length = tag.type.size) (padding : fill.length = tag.padding)
      (admits : tag.admits (tag.type.ofOctets tag.order content).toNumber = true) :
      Spells (.scalar tag) (content ++ fill)
        (.number (tag.type.ofOctets tag.order content).toNumber)
  /-- A text of fixed width is the whole slot. -/
  | string {tag : TextTag} {slot : List UInt8} (width : slot.length = tag.paddedTo.toNat)
      (admits : tag.admits (fieldText slot) = true) :
      Spells (.string tag) slot (.string (fieldText slot))
  /-- A text in a slot of known width ends at the first zero byte. -/
  | padded {tag : TextTag} {slot : List UInt8} (bounded : tag.paddedTo ≠ 0)
      (width : slot.length = tag.paddedTo.toNat)
      (admits : tag.admits (fieldText (Reader.untilZero slot)) = true) :
      Spells (.cstring tag) slot (.string (fieldText (Reader.untilZero slot)))
  /-- A text without a width stands in front of its zero byte. -/
  | terminated {tag : TextTag} {text : List UInt8} (unbounded : tag.paddedTo = 0)
      (free : 0 ∉ text) (admits : tag.admits (fieldText text) = true) :
      Spells (.cstring tag) (text ++ [0]) (.string (fieldText text))

variable {r next : Reader}

/-- A scalar slot matches exactly if its bytes are there and spell an admitted number. -/
theorem ScalarTag.decode_matches_iff {tag : ScalarTag} {n : Number} :
    (tag.decode r).Matches n next ↔
      ∃ slot, r.Passes slot next ∧ Tag.Spells (.scalar tag) slot (.number n) := by
  unfold ScalarTag.decode
  rw [Outcome.demanding_matches_iff, Outcome.skipping_matches_iff]
  constructor
  · rintro ⟨⟨mid, fill, hread, hfill, hpadding⟩, hadmits⟩
    obtain ⟨value, hvalue, rfl⟩ := Outcome.map_matches_iff.mp hread
    obtain ⟨content, hcontent, hwidth, rfl⟩ :=
      Reader.scalar_eq_ok_iff.mp (Outcome.ofRead_matches_iff.mp hvalue)
    exact ⟨content ++ fill, hcontent.append hfill, .scalar hwidth hpadding hadmits⟩
  · rintro ⟨slot, hpass, hspells⟩
    cases hspells with
    | scalar hwidth hpadding hadmits =>
      rename_i content fill
      have hmid : r.Passes content ⟨r.offset + content.length, fill ++ next.rest⟩ :=
        ⟨by rw [hpass.rest, List.append_assoc], rfl⟩
      have hfill : Reader.Passes ⟨r.offset + content.length, fill ++ next.rest⟩ fill next :=
        ⟨rfl, by rw [hpass.offset, List.length_append, Nat.add_assoc]⟩
      have hread : r.scalar tag.type tag.order
          = .ok (tag.type.ofOctets tag.order content, ⟨r.offset + content.length, _⟩) :=
        Reader.scalar_eq_ok_iff.mpr ⟨content, hmid, hwidth, rfl⟩
      exact ⟨⟨_, fill, Outcome.map_matches_iff.mpr
        ⟨_, Outcome.ofRead_matches_iff.mpr hread, rfl⟩, hfill, hpadding⟩, hadmits⟩

/-- A width counts at least one byte. -/
theorem TextTag.toNat_paddedTo_ne_zero {tag : TextTag} (h : tag.paddedTo ≠ 0) :
    tag.paddedTo.toNat ≠ 0 := fun hzero => h (UInt64.toNat_inj.mp hzero)

/-- A slot matches exactly if its bytes are there and spell the value. -/
theorem Tag.decode_matches_iff {tag : Tag} {value : Json} :
    (tag.decode r).Matches value next ↔ ∃ slot, r.Passes slot next ∧ tag.Spells slot value := by
  cases tag with
  | scalar tag =>
    rw [Tag.decode, Outcome.map_matches_iff]
    constructor
    · rintro ⟨n, h, rfl⟩
      exact ScalarTag.decode_matches_iff.mp h
    · rintro ⟨slot, hpass, hspells⟩
      cases hspells with
      | scalar hwidth hpadding hadmits =>
        exact ⟨_, ScalarTag.decode_matches_iff.mpr
          ⟨_, hpass, .scalar hwidth hpadding hadmits⟩, rfl⟩
  | string tag =>
    simp only [Tag.decode, Outcome.map_matches_iff, Outcome.demanding_matches_iff,
      Outcome.ofRead_matches_iff, Reader.fixedText_eq_ok_iff]
    constructor
    · rintro ⟨s, ⟨⟨text, ⟨hpass, hwidth⟩, rfl⟩, hadmits⟩, rfl⟩
      exact ⟨text, hpass, .string hwidth hadmits⟩
    · rintro ⟨slot, hpass, hspells⟩
      cases hspells with
      | string hwidth hadmits => exact ⟨_, ⟨⟨slot, ⟨hpass, hwidth⟩, rfl⟩, hadmits⟩, rfl⟩
  | cstring tag =>
    simp only [Tag.decode, Outcome.map_matches_iff, Outcome.demanding_matches_iff,
      Outcome.ofRead_matches_iff]
    constructor
    · rintro ⟨s, ⟨⟨text, hread, rfl⟩, hadmits⟩, rfl⟩
      by_cases hwidth : tag.paddedTo = 0
      · rw [hwidth] at hread
        obtain ⟨hpass, hfree⟩ := Reader.terminatedText_zero_eq_ok_iff.mp hread
        exact ⟨text ++ [0], hpass, .terminated hwidth hfree hadmits⟩
      · have hne := TextTag.toNat_paddedTo_ne_zero hwidth
        obtain ⟨slot, hpass, hlen, rfl⟩ := (Reader.terminatedText_eq_ok_iff hne).mp hread
        exact ⟨slot, hpass, .padded hwidth hlen hadmits⟩
    · rintro ⟨slot, hpass, hspells⟩
      cases hspells with
      | padded hwidth hlen hadmits =>
        have hne := TextTag.toNat_paddedTo_ne_zero hwidth
        have hread := (Reader.terminatedText_eq_ok_iff hne).mpr ⟨slot, hpass, hlen, rfl⟩
        exact ⟨_, ⟨⟨_, hread, rfl⟩, hadmits⟩, rfl⟩
      | terminated hwidth hfree hadmits =>
        have hread := Reader.terminatedText_zero_eq_ok_iff.mpr ⟨hpass, hfree⟩
        rw [hwidth]
        exact ⟨_, ⟨⟨_, hread, rfl⟩, hadmits⟩, rfl⟩

end ByteRecord
