import ByteRecord.Json.Parser
import ByteRecord.Proofs.Json.Tree

/-!
# Values that are read from text

No object that is read from text repeats a name: a name that repeats gives the member that is there
already its new value. The invariant is that of the reader's stack of open containers; one token
keeps it, and so does the whole text.
-/

namespace ByteRecord

namespace Json

/-- What an open container holds so far repeats no name. -/
def Frame.DistinctKeys : Frame → Prop
  | items done => (Json.array done).DistinctKeys
  | member done _ => (Json.object done).DistinctKeys

/-- Nothing that has been read so far repeats a name. -/
def State.DistinctKeys : State → Prop
  | .value stack | .firstItem stack | .firstName stack => ∀ frame ∈ stack, frame.DistinctKeys
  | .afterItem done stack =>
    (Json.array done).DistinctKeys ∧ ∀ frame ∈ stack, frame.DistinctKeys
  | .name done stack | .colon done _ stack | .afterMember done stack =>
    (Json.object done).DistinctKeys ∧ ∀ frame ∈ stack, frame.DistinctKeys
  | .complete v => v.DistinctKeys

/-- The value of a token repeats no name. -/
def Token.DistinctKeys : Token → Prop
  | scalar value => value.DistinctKeys
  | _ => True

namespace State

theorem supply_distinctKeys {v : Json} {stack : List Frame} (hv : v.DistinctKeys)
    (hstack : ∀ frame ∈ stack, frame.DistinctKeys) : (supply v stack).DistinctKeys := by
  cases stack with
  | nil => exact hv
  | cons frame stack =>
    obtain ⟨hframe, houter⟩ := List.forall_mem_cons.mp hstack
    cases frame with
    | items done =>
      cases hframe with
      | array below => exact ⟨.array (List.forall_mem_cons.mpr ⟨hv, below⟩), houter⟩
    | member done name => exact ⟨Json.DistinctKeys.set hframe hv, houter⟩

theorem begin_distinctKeys {stack : List Frame} {token : Token} {next : State}
    (hstack : ∀ frame ∈ stack, frame.DistinctKeys) (htoken : token.DistinctKeys)
    (h : begin stack token = .ok next) : next.DistinctKeys := by
  unfold begin at h
  split at h
  · injection h with h
    exact h ▸ hstack
  · injection h with h
    exact h ▸ hstack
  · split at h
    · injection h with h
      exact h ▸ supply_distinctKeys .number hstack
    · cases h
  · injection h with h
    exact h ▸ supply_distinctKeys htoken hstack
  · injection h with h
    exact h ▸ supply_distinctKeys .string hstack
  · cases h

/-- No token makes a name repeat. -/
theorem step_distinctKeys {state next : State} {token : Token} (hstate : state.DistinctKeys)
    (htoken : token.DistinctKeys) (h : state.step token = .ok next) : next.DistinctKeys := by
  have hempty : (Json.array []).DistinctKeys := .array (List.forall_mem_nil _)
  have hnone : (Json.object []).DistinctKeys := .object List.nodup_nil (List.forall_mem_nil _)
  unfold step at h
  split at h
  · exact begin_distinctKeys hstate htoken h
  · injection h with h
    exact h ▸ supply_distinctKeys hempty hstate
  · have hframe : (Frame.items []).DistinctKeys := hempty
    exact begin_distinctKeys (List.forall_mem_cons.mpr ⟨hframe, hstate⟩) htoken h
  · injection h with h
    exact h ▸ List.forall_mem_cons.mpr hstate
  · injection h with h
    obtain ⟨hdone, hstack⟩ := hstate
    cases hdone with
    | array below =>
      refine h ▸ supply_distinctKeys (.array ?_) hstack
      intro item hitem
      exact below item (List.mem_reverse.mp hitem)
  · injection h with h
    exact h ▸ supply_distinctKeys hnone hstate
  · injection h with h
    exact h ▸ ⟨hnone, hstate⟩
  · injection h with h
    exact h ▸ hstate
  · injection h with h
    exact h ▸ List.forall_mem_cons.mpr hstate
  · injection h with h
    exact h ▸ hstate
  · injection h with h
    exact h ▸ supply_distinctKeys hstate.1 hstate.2
  · cases h

theorem run_distinctKeys {state next : State} {tokens : List Token} (hstate : state.DistinctKeys)
    (htokens : ∀ token ∈ tokens, token.DistinctKeys) (h : state.run tokens = .ok next) :
    next.DistinctKeys := by
  induction tokens generalizing state with
  | nil =>
    injection h with h
    exact h ▸ hstate
  | cons token rest ih =>
    obtain ⟨htoken, hrest⟩ := List.forall_mem_cons.mp htokens
    rw [run] at h
    split at h
    · rename_i mid hmid
      exact ih (step_distinctKeys hstate htoken hmid) hrest h
    · cases h

end State

namespace Token

theorem punctuation_distinctKeys {c : Char} {token : Token} (h : punctuation? c = some token) :
    token.DistinctKeys := by
  unfold punctuation? at h
  repeat' split at h
  all_goals cases h
  all_goals trivial

theorem start_distinctKeys (c : Char) : ∀ token ∈ (start c).1, token.DistinctKeys := by
  unfold start
  split
  · rename_i token _ hpunctuation
    exact List.forall_mem_singleton.mpr (punctuation_distinctKeys hpunctuation)
  · exact List.forall_mem_nil _
  · repeat' split
    all_goals exact List.forall_mem_nil _

theorem finish_distinctKeys {mode : Mode} {tokens : List Token} (h : finish? mode = some tokens) :
    ∀ token ∈ tokens, token.DistinctKeys := by
  cases mode with
  | between =>
    injection h with h
    exact h ▸ List.forall_mem_nil _
  | number phase read =>
    rw [finish?] at h
    split at h
    · injection h with h
      exact h ▸ List.forall_mem_singleton.mpr .number
    · cases h
  | word read =>
    obtain ⟨token, htoken, rfl⟩ := Option.map_eq_some_iff.mp h
    refine List.forall_mem_singleton.mpr ?_
    unfold word? at htoken
    repeat' split at htoken
    · exact Option.some.inj htoken ▸ .null
    · exact Option.some.inj htoken ▸ .bool
    · exact Option.some.inj htoken ▸ .bool
    · cases htoken
  | _ => cases h

theorem restart_distinctKeys (mode : Mode) (c : Char) :
    ∀ token ∈ (restart mode c).1, token.DistinctKeys := by
  unfold restart
  split
  · exact List.forall_mem_nil _
  · rename_i ended hended
    intro token htoken
    rcases List.mem_append.mp htoken with hmem | hmem
    · exact finish_distinctKeys hended token hmem
    · exact start_distinctKeys c token hmem

theorem stepText_distinctKeys (mode : Mode) (c : Char) :
    ∀ token ∈ (stepText mode c).1, token.DistinctKeys := by
  unfold stepText
  repeat' split
  all_goals first | exact List.forall_mem_nil _ | exact List.forall_mem_singleton.mpr trivial

/-- No character completes a token whose value repeats a name. -/
theorem step_distinctKeys (mode : Mode) (c : Char) :
    ∀ token ∈ (step mode c).1, token.DistinctKeys := by
  cases mode with
  | between => exact start_distinctKeys c
  | number phase read =>
    rw [step]
    split
    · exact List.forall_mem_nil _
    · exact restart_distinctKeys _ c
  | word read =>
    rw [step]
    split
    · exact List.forall_mem_nil _
    · exact restart_distinctKeys _ c
  | _ => exact stepText_distinctKeys _ c

end Token

theorem State.readChars_distinctKeys {mode : Token.Mode} {state : State} {s : List Char}
    {value : Json} (hstate : state.DistinctKeys) (h : readChars mode state s = .ok value) :
    value.DistinctKeys := by
  induction s generalizing mode state with
  | nil =>
    rw [readChars] at h
    split at h
    · rename_i tokens htokens
      cases hrun : state.run tokens with
      | error cause =>
        rw [hrun] at h
        cases h
      | ok last =>
        have hlast := run_distinctKeys hstate (Token.finish_distinctKeys htokens) hrun
        rw [hrun] at h
        cases last with
        | complete v =>
          injection h with h
          exact h ▸ hlast
        | _ => cases h
    · cases h
  | cons c rest ih =>
    rw [readChars] at h
    split at h
    rename_i tokens mode' htokens
    have hstep := Token.step_distinctKeys mode c
    rw [htokens] at hstep
    split at h
    · rename_i next _ hrun
      exact ih (run_distinctKeys hstate hstep hrun) h
    · cases h
    · cases h

/-- A value that is read from a text repeats no name in any object. -/
theorem parse_distinctKeys {s : String} {value : Json} (h : parse s = .ok value) :
    value.DistinctKeys := by
  have hstart : (State.value []).DistinctKeys := List.forall_mem_nil _
  exact State.readChars_distinctKeys hstart h

end Json

end ByteRecord
