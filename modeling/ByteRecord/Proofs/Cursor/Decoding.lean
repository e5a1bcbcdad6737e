import ByteRecord.Proofs.Cursor.Invariant
import ByteRecord.Proofs.Decode.Remainder

/-!
# Decoding with a cursor

A reader goes back by being used again; a cursor goes back by seeking the position where it was, as a
floating-point number. `Node.decodeAt` decodes with a cursor: a branch seeks its start before every
alternative, and an array over the rest of the data seeks the start of what did not match and ends
when an element leaves the cursor where it was. Nothing about such an array tells that it ends, so it
is given up, together with the whole decoding, when it has decoded one element more than there were
bytes. `Tracks` says that decoding with a cursor comes to what decoding with a reader comes to, and
that it ends ahead of where it started; it goes through every way of combining outcomes, so nothing is
ever given up.
-/

namespace ByteRecord

/-- How decoding with a cursor ends and where it leaves the cursor. There is none if it is given
up. -/
abbrev Attempt (α : Type) := Option (Verdict α × Cursor)

namespace Attempt

variable {α β : Type}

/-- Goes on behind a match. -/
def andThen (attempt : Attempt α) (next : α → Cursor → Attempt β) : Attempt β :=
  match attempt with
  | none => none
  | some (.matched value, c) => next value c
  | some (.noMatch, c) => some (.noMatch, c)
  | some (.failed cause, c) => some (.failed cause, c)

theorem andThen_matched (value : α) (c : Cursor) (next : α → Cursor → Attempt β) :
    andThen (some (.matched value, c)) next = next value c := rfl

/-- Changes the value of a match. -/
def map (f : α → β) (attempt : Attempt α) : Attempt β :=
  attempt.andThen fun value c => some (.matched (f value), c)

/-- Demands something of the value of a match. -/
def demanding (attempt : Attempt α) (admits : α → Bool) : Attempt α :=
  attempt.andThen fun value c => some (if admits value then .matched value else .noMatch, c)

/-- Reads at the position of the cursor. -/
def ofRead (c : Cursor) (read : Reader → Except BoundsError (α × Reader)) : Attempt α :=
  match (Cursor.reading read).on c with
  | (.ok value, next) => some (.matched value, next)
  | (.error cause, left) => some (.failed (.bounds cause), left)

/-- Passes over the bytes that fill a slot behind its value. -/
def skipping (attempt : Attempt α) (count : Nat) : Attempt α :=
  attempt.andThen fun value c =>
    if count = 0 then some (.matched value, c)
    else ofRead c fun r => (r.skip count).map fun next => (value, next)

/-- Decodes `left` more elements. -/
def repeated (decode : Cursor → Attempt Json) : (left : Nat) → Cursor → Attempt (List Json)
  | 0, c => some (.matched [], c)
  | left + 1, c =>
    (decode c).andThen fun value next => (repeated decode left next).map (value :: ·)

/-- Decodes elements until the cursor is at the end of its contents, an element does not match, or an
element leaves it where it was. Gives up behind `tries` elements. -/
def repeatedToEnd (decode : Cursor → Attempt Json) :
    (tries : Nat) → Cursor → Attempt (List Json)
  | 0, c => if c.atEnd then some (.matched [], c) else none
  | tries + 1, c =>
    if c.atEnd then some (.matched [], c)
    else
      match decode c with
      | none => none
      | some (.failed cause, next) => some (.failed cause, next)
      | some (.noMatch, next) => some (.matched [], next.seek (Binary64.ofNat c.position))
      | some (.matched value, next) =>
        if next.position = c.position then some (.matched [], next)
        else (repeatedToEnd decode tries next).map (value :: ·)

end Attempt

/-- Decodes a slot with a cursor. -/
def Tag.decodeAt (c : Cursor) : Tag → Attempt Json
  | scalar tag =>
    let read := Attempt.ofRead c (·.scalar tag.type tag.order)
    (((read.map Scalar.toNumber).skipping tag.padding).demanding tag.admits).map .number
  | string tag =>
    let read := Attempt.ofRead c (·.fixedText tag.paddedTo.toNat)
    ((read.map fieldText).demanding tag.admits).map .string
  | cstring tag =>
    let read := Attempt.ofRead c (·.terminatedText tag.paddedTo.toNat)
    ((read.map fieldText).demanding tag.admits).map .string

namespace Node

mutual

/-- Decodes one value of the node with a cursor. An array over the rest of the data is given up
behind one element more than bytes remain. -/
def decodeAt (scope : Scope) : Node → Cursor → Attempt Json
  | leaf tag, c => tag.decodeAt c
  | array element length, c =>
    match length.resolve scope c.remaining with
    | .error cause => some (.failed cause, c)
    | .ok none =>
      (Attempt.repeatedToEnd (decodeAt scope element) (c.remaining + 1) c).map .array
    | .ok (some count) =>
      match element.plainScalar? with
      | some tag =>
        (Attempt.ofRead c (·.scalars tag.type tag.order count)).map fun values =>
          .array (values.map fun value => .number value.toNumber)
      | none => (Attempt.repeated (decodeAt scope element) count c).map .array
  | branch alternatives, c => decodeFirstAt scope c.position alternatives c
  | struct fields, c => (decodeFieldsAt [] fields c).map .object

/-- Decodes the first alternative that matches, each from the position `start`. -/
def decodeFirstAt (scope : Scope) (start : Nat) : List Node → Cursor → Attempt Json
  | [], c => some (.noMatch, c.seek (Binary64.ofNat start))
  | node :: rest, c =>
    match decodeAt scope node (c.seek (Binary64.ofNat start)) with
    | none => none
    | some (.matched value, next) => some (.matched value, next)
    | some (.failed cause, next) => some (.failed cause, next)
    | some (.noMatch, next) => decodeFirstAt scope start rest next

/-- Decodes the fields behind those that are `done`. -/
def decodeFieldsAt (done : Members) : List (String × Node) → Cursor → Attempt Members
  | [], c => some (.matched done, c)
  | (name, node) :: rest, c =>
    (decodeAt (some done) node c).andThen fun value next =>
      decodeFieldsAt (done ++ [(name, value)]) rest next

end

end Node

/-- What decoding at the position of a cursor comes to, and the cursor behind it. -/
def Cursor.decoded {α : Type} (c : Cursor) (decode : Reader → Outcome α) : Attempt α :=
  some ((decode c.reader).verdict, c.moveTo (decode c.reader).reader.offset)

/-- Decoding with a cursor comes to what decoding with a reader comes to, and however that ends, it
ends ahead of where it started. -/
structure Tracks {α : Type} (attempt : Cursor → Attempt α) (decode : Reader → Outcome α) :
    Prop where
  /-- The reader is left behind bytes that were there. -/
  ahead (r : Reader) : ∃ bytes, r.Passes bytes (decode r).reader
  /-- Nothing is given up, and the cursor is left where the reader is. -/
  attempt_eq (c : Cursor) : c.Within → c.length ≤ integerBound → attempt c = c.decoded decode

/-- Changing the value of what is decoded leaves the cursor where it is. -/
theorem Cursor.map_decoded {α β : Type} {c : Cursor} {decode : Reader → Outcome α} (f : α → β) :
    (c.decoded decode).map f = c.decoded fun r => (decode r).map f := by
  unfold decoded
  dsimp only
  rw [Outcome.reader_map]
  unfold Outcome.map Outcome.andThen
  cases (decode c.reader).verdict with
  | matched value => rfl
  | noMatch => rfl
  | failed cause => rfl

namespace Tracks

variable {α β : Type} {attempt : Cursor → Attempt α} {decode : Reader → Outcome α} {c : Cursor}

/-- A value without bytes leaves everything where it is. -/
theorem matched (value : α) : Tracks (fun c => some (.matched value, c)) (Outcome.matched value) :=
  ⟨fun r => ⟨[], r.passes_nil⟩, fun _ _ _ => rfl⟩

/-- A sequence goes ahead from where its first part ends. -/
theorem andThen {next : α → Cursor → Attempt β} {behind : Reader → α → Reader → Outcome β}
    (tracks : Tracks attempt decode) (later : ∀ r value, Tracks (next value) (behind r value)) :
    Tracks (fun c => (attempt c).andThen next) (fun r => (decode r).andThen (behind r)) := by
  refine ⟨fun r => ?_, fun c hwithin hsmall => ?_⟩
  · obtain ⟨first, hfirst⟩ := tracks.ahead r
    unfold Outcome.andThen
    cases (decode r).verdict with
    | matched value =>
      obtain ⟨rest, hrest⟩ := (later r value).ahead (decode r).reader
      exact ⟨first ++ rest, hfirst.append hrest⟩
    | noMatch => exact ⟨first, hfirst⟩
    | failed cause => exact ⟨first, hfirst⟩
  · obtain ⟨first, hfirst⟩ := tracks.ahead c.reader
    rw [tracks.attempt_eq c hwithin hsmall, Cursor.decoded, Cursor.decoded, Outcome.andThen]
    cases hverdict : (decode c.reader).verdict with
    | matched value =>
      have hlater := (later c.reader value).attempt_eq _ (hwithin.moveTo hfirst) hsmall
      rw [Cursor.decoded, Cursor.reader_moveTo hfirst] at hlater
      exact hlater
    | noMatch => rfl
    | failed cause => rfl

theorem map (tracks : Tracks attempt decode) (f : α → β) :
    Tracks (fun c => (attempt c).map f) (fun r => (decode r).map f) :=
  tracks.andThen fun _ value => matched (f value)

/-- Reporting an event moves nothing. -/
theorem noting (tracks : Tracks attempt decode) (event : Event) :
    Tracks attempt (fun r => (decode r).noting event) := by
  have hsame : ∀ r, ((decode r).noting event).verdict = (decode r).verdict
      ∧ ((decode r).noting event).reader = (decode r).reader := by
    intro r
    unfold Outcome.noting
    cases hverdict : (decode r).verdict with
    | matched value => exact ⟨hverdict, rfl⟩
    | noMatch => exact ⟨rfl, rfl⟩
    | failed cause => exact ⟨hverdict, rfl⟩
  refine ⟨fun r => ?_, fun c hwithin hsmall => ?_⟩
  · rw [(hsame r).2]
    exact tracks.ahead r
  · rw [tracks.attempt_eq c hwithin hsmall, Cursor.decoded, Cursor.decoded, (hsame _).1, (hsame _).2]

/-- A demand moves nothing. -/
theorem demanding (tracks : Tracks attempt decode) (admits : α → Bool)
    (event : Reader → α → Event) :
    Tracks (fun c => (attempt c).demanding admits)
      (fun r => (decode r).demanding admits (event r)) := by
  refine tracks.andThen fun r value => ?_
  cases hadmits : admits value with
  | true => exact matched value
  | false => exact ⟨fun r => ⟨[], r.passes_nil⟩, fun _ _ _ => rfl⟩

/-- A read goes over bytes that are there, or leaves everything where it is. -/
theorem ofRead {read : Reader → Except BoundsError (α × Reader)} (goesOn : Reader.GoesOn read) :
    Tracks (fun c => Attempt.ofRead c read) (fun r => Outcome.ofRead r (read r)) := by
  refine ⟨fun r => ?_, fun c _ _ => ?_⟩
  · cases hread : read r with
    | ok result => exact goesOn r _ _ hread
    | error cause => exact ⟨[], r.passes_nil⟩
  · cases hread : read c.reader with
    | ok result =>
      simp only [Attempt.ofRead, Cursor.on_reading, Cursor.decoded, hread]
      rfl
    | error cause =>
      simp only [Attempt.ofRead, Cursor.on_reading, Cursor.decoded, hread]
      rfl

theorem skipping (tracks : Tracks attempt decode) (count : Nat) :
    Tracks (fun c => (attempt c).skipping count) (fun r => (decode r).skipping count) := by
  refine tracks.andThen fun _ value => ?_
  by_cases hcount : count = 0
  · simp only [hcount, if_true]
    exact matched value
  · simp only [hcount, if_false]
    exact ofRead (Reader.goesOn_skip value count)

variable {attempt : Cursor → Attempt Json} {decode : Reader → Outcome Json}

theorem repeated (tracks : Tracks attempt decode) (total left : Nat) :
    Tracks (Attempt.repeated attempt left) (Outcome.repeated decode total left) := by
  induction left with
  | zero => exact matched []
  | succ left ih => exact (tracks.noting _).andThen fun _ value => ih.map (value :: ·)

/-- The elements up to the end of the data end ahead of where they start. -/
theorem ahead_repeatedToEnd (tracks : Tracks attempt decode) (r : Reader) :
    ∃ bytes, r.Passes bytes (Outcome.repeatedToEnd decode r).reader := by
  induction hsize : r.remaining using Nat.strongRecOn generalizing r with
  | ind size ih =>
    obtain ⟨first, hfirst⟩ := tracks.ahead r
    by_cases hend : r.atEnd = true
    · rw [Outcome.repeatedToEnd_of_atEnd hend]
      exact ⟨[], r.passes_nil⟩
    cases hverdict : (decode r).verdict with
    | noMatch =>
      rw [Outcome.repeatedToEnd_of_noMatch hend hverdict]
      exact ⟨[], r.passes_nil⟩
    | failed cause =>
      rw [Outcome.repeatedToEnd_of_failed hend hverdict]
      exact ⟨first, hfirst⟩
    | matched value =>
      have hmatch : (decode r).Matches value (decode r).reader := ⟨hverdict, rfl⟩
      by_cases hshorter : (decode r).reader.remaining < r.remaining
      · obtain ⟨rest, hrest⟩ := ih _ (hsize ▸ hshorter) _ rfl
        rw [(Outcome.repeatedToEnd_of_shorter hmatch hshorter).2, Outcome.reader_map]
        exact ⟨first ++ rest, hfirst.append hrest⟩
      · rw [Outcome.repeatedToEnd_of_idle hend hmatch (Nat.le_of_not_lt hshorter)]
        exact ⟨first, hfirst⟩

/-- As many tries as bytes remain are enough for the elements up to the end of the data, because each
but the last takes a byte. -/
theorem repeatedToEnd_eq (tracks : Tracks attempt decode) {tries : Nat} {c : Cursor}
    (hwithin : c.Within) (hsmall : c.length ≤ integerBound) (henough : c.remaining ≤ tries) :
    Attempt.repeatedToEnd attempt tries c = c.decoded (Outcome.repeatedToEnd decode) := by
  induction tries generalizing c with
  | zero =>
    have hend : c.atEnd = true := by
      have hposition := hwithin.position_le
      rw [Cursor.remaining] at henough
      rw [Cursor.atEnd, beq_iff_eq]
      omega
    rw [Attempt.repeatedToEnd, if_pos hend, Cursor.decoded,
      Outcome.repeatedToEnd_of_atEnd (hwithin.atEnd_reader.trans hend)]
    rfl
  | succ tries ih =>
    rw [Attempt.repeatedToEnd]
    by_cases hend : c.atEnd = true
    · rw [if_pos hend, Cursor.decoded,
        Outcome.repeatedToEnd_of_atEnd (hwithin.atEnd_reader.trans hend)]
      rfl
    have hmore : ¬ c.reader.atEnd = true := by rwa [hwithin.atEnd_reader]
    obtain ⟨bytes, hpass⟩ := tracks.ahead c.reader
    rw [if_neg hend, tracks.attempt_eq c hwithin hsmall, Cursor.decoded, Cursor.decoded]
    cases hverdict : (decode c.reader).verdict with
    | noMatch =>
      rw [Outcome.repeatedToEnd_of_noMatch hmore hverdict]
      dsimp only
      rw [hwithin.seek_back hsmall]
      rfl
    | failed cause =>
      rw [Outcome.repeatedToEnd_of_failed hmore hverdict]
    | matched value =>
      have hmatch : (decode c.reader).Matches value (decode c.reader).reader := ⟨hverdict, rfl⟩
      have hoffset : (decode c.reader).reader.offset = c.position + bytes.length := hpass.offset
      have hremaining := hpass.remaining
      dsimp only
      by_cases hidle : bytes.length = 0
      · have hplace : (decode c.reader).reader.offset = c.position := by omega
        rw [Outcome.repeatedToEnd_of_idle hmore hmatch (by omega)]
        exact if_pos hplace
      · have hplace : ¬ (decode c.reader).reader.offset = c.position := by omega
        have hfewer : (c.moveTo (decode c.reader).reader.offset).remaining ≤ tries := by
          have hfit := hwithin.offset_le hpass
          rw [Cursor.remaining] at henough ⊢
          change c.length - (decode c.reader).reader.offset ≤ tries
          omega
        have hlater := congrArg (Attempt.map (value :: ·))
          (ih (hwithin.moveTo hpass) hsmall hfewer)
        rw [Cursor.map_decoded, Cursor.decoded, Cursor.reader_moveTo hpass] at hlater
        obtain ⟨hsame, hreader⟩ := Outcome.repeatedToEnd_of_shorter hmatch (by omega)
        rw [hsame, hreader]
        exact (if_neg hplace).trans hlater

theorem repeatedToEnd (tracks : Tracks attempt decode) :
    Tracks (fun c => Attempt.repeatedToEnd attempt (c.remaining + 1) c)
      (Outcome.repeatedToEnd decode) :=
  ⟨tracks.ahead_repeatedToEnd, fun _ hwithin hsmall =>
    tracks.repeatedToEnd_eq hwithin hsmall (Nat.le_succ _)⟩

end Tracks

/-- A slot is decoded with a cursor as with a reader. -/
theorem Tag.tracks (tag : Tag) : Tracks (fun c => tag.decodeAt c) fun r => tag.decode r := by
  cases tag with
  | scalar tag =>
    have hread := (Tracks.ofRead (Reader.goesOn_scalar tag.type tag.order)).map Scalar.toNumber
    exact ((hread.skipping tag.padding).demanding tag.admits
      fun r value => .scalarMismatch tag r.offset value).map Json.number
  | string tag =>
    have hread := (Tracks.ofRead (Reader.goesOn_fixedText tag.paddedTo.toNat)).map fieldText
    exact (hread.demanding tag.admits
      fun r _ => .textMismatch tag.paddedTo.toNat r.offset).map Json.string
  | cstring tag =>
    have hread := (Tracks.ofRead (Reader.goesOn_terminatedText tag.paddedTo.toNat)).map fieldText
    exact (hread.demanding tag.admits fun r _ => .terminatedTextMismatch r.offset).map Json.string

namespace Node

variable {scope : Scope}

/-- The alternatives of a branch are tried from where the cursor was, wherever it is moved
meanwhile. -/
theorem decodeFirstAt_eq {alternatives : List Node} {c : Cursor} (hwithin : c.Within)
    (hsmall : c.length ≤ integerBound) (total index position : Nat)
    (each : ∀ node ∈ alternatives, Tracks (decodeAt scope node) (node.decode scope)) :
    decodeFirstAt scope c.position alternatives (c.moveTo position)
      = c.decoded fun r => decodeFirst scope r total index alternatives := by
  induction alternatives generalizing index position with
  | nil =>
    rw [decodeFirstAt, hwithin.seek_back hsmall, Cursor.decoded]
    simp only [decodeFirst]
    rfl
  | cons node rest ih =>
    obtain ⟨hnode, hrest⟩ := List.forall_mem_cons.mp each
    rw [decodeFirstAt, hwithin.seek_back hsmall, hnode.attempt_eq c hwithin hsmall,
      Cursor.decoded, Cursor.decoded]
    simp only [decodeFirst]
    cases hverdict : (node.decode scope c.reader).verdict with
    | matched value => rfl
    | failed cause => rfl
    | noMatch => exact ih (index + 1) _ hrest

/-- The alternatives of a branch end ahead of where they start. -/
theorem ahead_decodeFirst {alternatives : List Node} (r : Reader) (total index : Nat)
    (each : ∀ node ∈ alternatives, Tracks (decodeAt scope node) (node.decode scope)) :
    ∃ bytes, r.Passes bytes (decodeFirst scope r total index alternatives).reader := by
  induction alternatives generalizing index with
  | nil => exact ⟨[], r.passes_nil⟩
  | cons node rest ih =>
    obtain ⟨hnode, hrest⟩ := List.forall_mem_cons.mp each
    obtain ⟨bytes, hbytes⟩ := hnode.ahead r
    simp only [decodeFirst]
    cases (node.decode scope r).verdict with
    | matched value => exact ⟨bytes, hbytes⟩
    | failed cause => exact ⟨bytes, hbytes⟩
    | noMatch => exact ih (index + 1) hrest

/-- Fields are decoded with a cursor as with a reader. -/
theorem tracks_fields {fields : List (String × Node)} (done : Members)
    (each : ∀ field ∈ fields, ∀ scope, Tracks (decodeAt scope field.2) (field.2.decode scope)) :
    Tracks (decodeFieldsAt done fields) (decodeFields done fields) := by
  induction fields generalizing done with
  | nil =>
    have hattempt : decodeFieldsAt done [] = fun c => some (.matched done, c) :=
      funext fun c => by rw [decodeFieldsAt]
    have hdecode : decodeFields done [] = Outcome.matched done :=
      funext fun r => by rw [decodeFields]
    rw [hattempt, hdecode]
    exact .matched done
  | cons field rest ih =>
    obtain ⟨name, node⟩ := field
    obtain ⟨hnode, hrest⟩ := List.forall_mem_cons.mp each
    have hattempt : decodeFieldsAt done ((name, node) :: rest) = fun c =>
        (decodeAt (some done) node c).andThen fun value next =>
          decodeFieldsAt (done ++ [(name, value)]) rest next :=
      funext fun c => by rw [decodeFieldsAt]
    have hdecode : decodeFields done ((name, node) :: rest) = fun r =>
        ((node.decode (some done) r).noting (.fieldMismatch name)).andThen fun value r =>
          decodeFields (done ++ [(name, value)]) rest r :=
      funext fun r => by rw [decodeFields]
    rw [hattempt, hdecode]
    exact ((hnode (some done)).noting _).andThen fun _ value => ih _ hrest

/-- An array is decoded with a cursor as with a reader. -/
theorem tracks_array {element : Node} (length : Length)
    (each : Tracks (decodeAt scope element) (element.decode scope)) :
    Tracks (decodeAt scope (array element length)) ((array element length).decode scope) := by
  have hremainder := each.repeatedToEnd.map Json.array
  have hcounted := fun count => (each.repeated count count).map Json.array
  have hplain := fun (tag : ScalarTag) count =>
    (Tracks.ofRead (Reader.goesOn_scalars tag.type tag.order count)).map fun values =>
      Json.array (values.map fun value => .number value.toNumber)
  refine ⟨fun r => ?_, fun c hwithin hsmall => ?_⟩
  · rw [decode]
    cases length.resolve scope r.remaining with
    | error cause => exact ⟨[], r.passes_nil⟩
    | ok count? =>
      cases count? with
      | none => exact hremainder.ahead r
      | some count =>
        cases element.plainScalar? with
        | some tag => exact (hplain tag count).ahead r
        | none => exact (hcounted count).ahead r
  · rw [decodeAt, Cursor.decoded, decode, hwithin.remaining_reader]
    cases length.resolve scope c.remaining with
    | error cause => rfl
    | ok count? =>
      cases count? with
      | none => exact hremainder.attempt_eq c hwithin hsmall
      | some count =>
        cases element.plainScalar? with
        | some tag => exact (hplain tag count).attempt_eq c hwithin hsmall
        | none => exact (hcounted count).attempt_eq c hwithin hsmall

/-- A node is decoded with a cursor as with a reader: no array is given up, and whatever the outcome
is, it is reached ahead of the start. -/
theorem tracks (node : Node) (scope : Scope) :
    Tracks (decodeAt scope node) (node.decode scope) := by
  induction node generalizing scope with
  | leaf tag =>
    have hattempt : decodeAt scope (leaf tag) = fun c => tag.decodeAt c :=
      funext fun c => by rw [decodeAt]
    rw [hattempt, decode_leaf]
    exact tag.tracks
  | array element length ih => exact tracks_array length (ih scope)
  | branch alternatives ih =>
    have heach := fun node hnode => ih node hnode scope
    refine ⟨fun r => ?_, fun c hwithin hsmall => ?_⟩
    · rw [decode]
      exact ahead_decodeFirst r _ _ heach
    · rw [decodeAt, Cursor.decoded, decode]
      exact decodeFirstAt_eq hwithin hsmall _ 0 c.position heach
  | struct fields ih =>
    have hattempt : decodeAt scope (struct fields) = fun c =>
        (decodeFieldsAt [] fields c).map .object := funext fun c => by rw [decodeAt]
    rw [hattempt, decode_struct]
    exact (tracks_fields [] ih).map Json.object

variable {c : Cursor}

/-- Decoding with a cursor ends, and the cursor is left ahead of where it was and within its contents,
which stay what they were; it comes to what decoding with a reader comes to. No array over the rest of
the data takes more tries than one more than the bytes that remain, and none has more items than
these. -/
theorem decodeAt_ends (node : Node) (scope : Scope) (within : c.Within)
    (small : c.length ≤ integerBound) :
    ∃ verdict position, decodeAt scope node c = some (verdict, c.moveTo position)
      ∧ c.position ≤ position ∧ position ≤ c.length
      ∧ (node.decode scope c.reader).verdict = verdict
      ∧ (node.decode scope c.reader).reader = (c.moveTo position).reader
      ∧ ∀ element value, node = array element .remainder → verdict = .matched value →
          ∃ values, value = .array values ∧ values.length ≤ c.remaining := by
  obtain ⟨bytes, hpass⟩ := (node.tracks scope).ahead c.reader
  have hoffset : (node.decode scope c.reader).reader.offset = c.position + bytes.length :=
    hpass.offset
  refine ⟨_, _, (node.tracks scope).attempt_eq c within small, ?_, within.offset_le hpass, rfl,
    (Cursor.reader_moveTo hpass).symm, ?_⟩
  · omega
  · rintro element value rfl hvalue
    obtain ⟨values, rfl, climb, -⟩ := decode_remainder_matches_iff.mp ⟨hvalue, rfl⟩
    have hlength := climb.length_le_remaining (element.decode_goesForward scope)
    rw [within.remaining_reader] at hlength
    exact ⟨values, rfl, hlength⟩

/-- Runs of sevens up to the end of the data. -/
def sevensNode : Node :=
  array (array (leaf (.scalar ⟨.uint8, .big, 0, some ⟨.integer 7, false⟩⟩)) .remainder) .remainder

/-- A cursor in front of two sevens. -/
def sevensCursor : Cursor := (Cursor.ofBytes [5, 7, 7, 9] .big false).moveTo 1

/-- Behind the first run there is only one without sevens, which takes no bytes and ends the array. -/
theorem decodeAt_ends_sevens :
    ∃ verdict, decodeAt none sevensNode sevensCursor = some (verdict, sevensCursor.moveTo 3) := by
  have hwithin : sevensCursor.Within := ⟨by decide, by decide⟩
  obtain ⟨verdict, position, hattempt, -⟩ := decodeAt_ends sevensNode none hwithin (by decide)
  have hposition : Option.map (fun result => result.2.position)
      (decodeAt none sevensNode sevensCursor) = some 3 := by decide +kernel
  rw [hattempt] at hposition
  obtain rfl : position = 3 := Option.some.inj hposition
  exact ⟨verdict, hattempt⟩

end Node

end ByteRecord
