import ByteRecord.Encode.Basic
import ByteRecord.Proofs.Atomicity
import ByteRecord.Proofs.Cursor.Writing
import ByteRecord.Proofs.Encode.Slots

/-!
# Carrying out a plan

Writes that follow one another are one write of all their bytes, up to the first that finds no room.
Doubling the buffer reaches every size up to two to the 63, so a plan without a fault that is carried
out on a buffer that may grow fails only if it is larger than that.
-/

namespace ByteRecord

/-- A plan without a fault succeeds where it finds room. -/
theorem Plan.outcome_eq_ok_iff {plan : Plan} : plan.outcome = .ok () ↔ plan.fault = none := by
  unfold Plan.outcome
  cases plan.fault with
  | none => simp
  | some cause => simp

namespace Cursor

variable {c next last : Cursor} {first second : List UInt8}

theorem Wrote.refl (h : c.Within) : c.Wrote [] c :=
  ⟨h, (overwrite_nil _ _).symm, rfl, rfl, rfl, Nat.le_refl _, fun _ => rfl⟩

/-- What is written behind other bytes is written together with them. -/
theorem Wrote.trans (h : c.Within) (hfirst : c.Wrote first next) (hsecond : next.Wrote second last) :
    c.Wrote (first ++ second) last := by
  refine ⟨hsecond.within, ?_, ?_, hsecond.order_eq.trans hfirst.order_eq,
    hsecond.growable_eq.trans hfirst.growable_eq,
    hfirst.capacity_le.trans hsecond.capacity_le, fun hfixed => ?_⟩
  · rw [hsecond.contents_eq, hfirst.contents_eq, hfirst.position_eq,
      overwrite_overwrite (h.length_contents.symm ▸ h.position_le)]
  · rw [hsecond.position_eq, hfirst.position_eq, List.length_append, Nat.add_assoc]
  · rw [hsecond.capacity_eq (hfirst.growable_eq.trans hfixed), hfirst.capacity_eq hfixed]

/-- Writes put their bytes one behind the other, up to the first that finds no room. -/
theorem Within.writeAll (h : c.Within) {writes : List Write} {result : Except CapacityError Unit}
    (hwrites : (Cursor.writeAll writes).on c = (result, last)) :
    ∃ done rest, writes = done ++ rest ∧ c.Wrote (done.flatMap Write.octets) last
      ∧ (result = .ok () → rest = []) := by
  induction writes generalizing c with
  | nil =>
    injection hwrites with _ hlast
    subst hlast
    exact ⟨[], [], rfl, .refl h, fun _ => rfl⟩
  | cons w rest ih =>
    rw [on_writeAll_cons] at hwrites
    cases hwrite : (Cursor.write w).on c with
    | mk written next =>
      rw [hwrite] at hwrites
      cases written with
      | error cause =>
        have hsame : next = c := by
          have hatomic := atomic_write w c cause
          rw [hwrite] at hatomic
          exact hatomic rfl
        injection hwrites with hfull hlast
        rw [← hlast, hsame]
        refine ⟨[], w :: rest, rfl, .refl h, fun hok => ?_⟩
        rw [← hfull] at hok
        cases hok
      | ok =>
        have hfirst := h.write hwrite
        obtain ⟨done, left, hsplit, hlater, hall⟩ := ih hfirst.within hwrites
        refine ⟨w :: done, left, congrArg (w :: ·) hsplit, ?_, hall⟩
        rw [List.flatMap_cons]
        exact hfirst.trans h hlater

/-- Writes that there is room for are all carried out, as long as no buffer has to grow beyond two to
the 63 bytes. -/
theorem exists_writeAll (h : c.Within) (writes : List Write)
    (hroom : c.growable = true ∨ c.position + (writes.flatMap Write.octets).length ≤ c.capacity)
    (hword : c.position + (writes.flatMap Write.octets).length < wordCount)
    (hfits : c.capacity < c.position + (writes.flatMap Write.octets).length →
      c.position + (writes.flatMap Write.octets).length ≤ signedBound) :
    ∃ last, (writeAll writes).on c = (.ok (), last) := by
  induction writes generalizing c with
  | nil => exact ⟨c, rfl⟩
  | cons w rest ih =>
    rw [List.flatMap_cons, List.length_append, Write.length_octets] at hroom hword hfits
    obtain ⟨next, hnext, -⟩ := exists_write (c := c) (w := w)
      (hroom.imp_right fun hthere => by omega) (by omega) fun hlarge => by
        have hall := hfits (by omega)
        omega
    have hwrote := h.write hnext
    have hcapacity := hwrote.capacity_le
    rw [on_writeAll_cons, hnext]
    refine ih hwrote.within ?_ ?_ ?_
    · rw [hwrote.growable_eq, hwrote.position_eq, Write.length_octets]
      exact hroom.imp_right fun hthere => by omega
    · rw [hwrote.position_eq, Write.length_octets]
      omega
    · rw [hwrote.position_eq, Write.length_octets]
      intro hlarge
      have hall := hfits (by omega)
      omega

/-- A plan that there is room for is carried out up to its fault. -/
theorem exists_execute (h : c.Within) {plan : Plan}
    (hroom : c.growable = true ∨ c.position + plan.octets.length ≤ c.capacity)
    (hword : c.position + plan.octets.length < wordCount)
    (hfits : c.capacity < c.position + plan.octets.length →
      c.position + plan.octets.length ≤ signedBound) :
    ∃ last, c.Wrote plan.octets last ∧ (execute plan).on c = (plan.outcome, last) := by
  obtain ⟨last, hlast⟩ := exists_writeAll h plan.writes hroom hword hfits
  obtain ⟨done, rest, hsplit, hwrote, hall⟩ := h.writeAll hlast
  rw [hall rfl, List.append_nil] at hsplit
  refine ⟨last, ?_, by rw [on_execute, hlast]⟩
  rw [Plan.octets, hsplit]
  exact hwrote

/-- Carrying out a plan writes bytes one behind the other, and all of them if it has no fault. -/
theorem Within.execute (h : c.Within) {plan : Plan} {result : Except Error Unit}
    (hexecute : (Cursor.execute plan).on c = (result, last)) :
    ∃ done, c.Wrote done last
      ∧ (result = .ok () → plan.fault = none ∧ done = plan.octets) := by
  rw [on_execute] at hexecute
  cases hwrites : (Cursor.writeAll plan.writes).on c with
  | mk written behind =>
    rw [hwrites] at hexecute
    obtain ⟨done, rest, hsplit, hwrote, hall⟩ := h.writeAll hwrites
    cases written with
    | error full =>
      injection hexecute with hfull hlast
      subst hlast
      refine ⟨_, hwrote, fun hok => ?_⟩
      rw [← hfull] at hok
      cases hok
    | ok =>
      injection hexecute with hresult hlast
      subst hlast
      refine ⟨_, hwrote, fun hok => ⟨Plan.outcome_eq_ok_iff.mp (hresult.trans hok), ?_⟩⟩
      rw [hall rfl, List.append_nil] at hsplit
      rw [Plan.octets, hsplit]

theorem within_empty (capacity : Nat) (order : Endian) (growable : Bool) :
    (empty capacity order growable).Within :=
  ⟨Nat.le_refl _, Nat.zero_le _⟩

/-- A buffer that may grow has room for every plan that keeps within two to the 63 bytes. -/
theorem exists_execute_empty {plan : Plan} (hsize : plan.octets.length ≤ signedBound)
    (capacity : Nat) (order : Endian) :
    ∃ last, (empty capacity order true).Wrote plan.octets last
      ∧ (execute plan).on (empty capacity order true) = (plan.outcome, last) := by
  have hstart : (empty capacity order true).position + plan.octets.length ≤ signedBound := by
    change 0 + _ ≤ _
    rwa [Nat.zero_add]
  exact exists_execute (within_empty capacity order true) (Or.inl rfl)
    (hstart.trans_lt (by decide)) fun _ => hstart

/-- What is written to a cursor without contents is all that is in it. -/
theorem Wrote.of_empty {content : List UInt8} {capacity : Nat} {order : Endian} {growable : Bool}
    (h : (empty capacity order growable).Wrote content last) :
    last.contents = content ∧ last.position = content.length := by
  have hcontents : (empty capacity order growable).contents = [] := rfl
  have hposition : (empty capacity order growable).position = 0 := rfl
  refine ⟨?_, ?_⟩
  · rw [h.contents_eq, hcontents, hposition, overwrite, List.take_nil, List.drop_nil,
      List.append_nil, List.nil_append]
  · rw [h.position_eq, hposition, Nat.zero_add]

end Cursor

namespace Node

variable {node : Node} {record : Json}

/-- Records of the same plan are encoded alike. -/
theorem encode_congr {other : Json}
    (same : node.plan none .root record = node.plan none .root other) (capacity : Nat)
    (order : Endian) : node.encode record capacity order = node.encode other capacity order := by
  rw [encode, encode, encodeAt, encodeAt, same]

/-- A record whose plan has no fault is encoded as its plan says, if it keeps within two to the 63
bytes. -/
theorem encode_eq_ok (hfault : (node.plan none .root record).fault = none)
    (hsize : (node.plan none .root record).octets.length ≤ signedBound) (capacity : Nat)
    (order : Endian) :
    (node.encode record capacity order).1
      = .ok ⟨(node.plan none .root record).octets, (node.plan none .root record).octets.length⟩ := by
  obtain ⟨last, hwrote, hexecute⟩ := Cursor.exists_execute_empty hsize capacity order
  obtain ⟨hcontents, hposition⟩ := hwrote.of_empty
  rw [encode, encodeAt, hexecute, Plan.outcome_eq_ok_iff.mpr hfault]
  dsimp only [Except.map]
  rw [hcontents, hposition]
  rfl

/-- What is encoded is what the plan says, and the plan has no fault. -/
theorem plan_of_encode_eq_ok {capacity : Nat} {order : Endian} {encoded : Encoded}
    (h : (node.encode record capacity order).1 = .ok encoded) :
    (node.plan none .root record).fault = none
      ∧ encoded.bytes = (node.plan none .root record).octets
      ∧ encoded.written = encoded.bytes.length := by
  rw [encode, encodeAt] at h
  cases hexecute : (Cursor.execute (node.plan none .root record)).on
      (Cursor.empty capacity order true) with
  | mk result last =>
    rw [hexecute] at h
    cases result with
    | error cause => cases h
    | ok =>
      obtain ⟨done, hwrote, hall⟩ := (Cursor.within_empty capacity order true).execute hexecute
      obtain ⟨hfault, rfl⟩ := hall rfl
      obtain ⟨hcontents, hposition⟩ := hwrote.of_empty
      injection h with h
      rw [← h]
      dsimp only
      rw [hcontents, hposition]
      exact ⟨hfault, rfl, rfl⟩

end Node

end ByteRecord
