import ByteRecord.Proofs.Files.FileTree

/-!
# Making directories and writing files

Making a directory either succeeds, and then the path text leads into it, or it is blocked, and then
it stays blocked and nothing can be written there. Making it once more changes nothing in both cases.
-/

namespace ByteRecord.FileTree

variable {tree next : FileTree} {location above : Location} {names rest : List String}
  {path directory name : String} {bytes : List UInt8} {cause : PathError}

/-- Something stands in a way that cannot be made a directory: a file, or a name that is too long. -/
def Obstructed (tree : FileTree) (location : Location) (names : List String) : Prop :=
  ∃ above name rest, tree.follow location names = (above, name :: rest)
    ∧ ((∃ bytes, tree.find? (above ++ [name]) = some (.file bytes))
      ∨ tree.find? (above ++ [name]) = none ∧ FileName.isLongName name = true)

theorem makeAlong_cons (tree : FileTree) (location : Location) (name : String)
    (rest : List String) :
    tree.makeAlong location (name :: rest)
      = match tree.step? location name with
        | some next => tree.makeAlong next rest
        | none =>
          match tree.find? (location ++ [name]) with
          | some _ => (.error .occupied, tree)
          | none =>
            if FileName.isLongName name then (.error .nameTooLong, tree)
            else (tree.put (location ++ [name]) .directory).makeAlong (location ++ [name]) rest := by
  rw [makeAlong, step?, hasDirectory]
  split
  · rfl
  · split
    · rfl
    · dsimp only
      cases tree.find? (location ++ [name]) with
      | none => rfl
      | some entry =>
        cases entry with
        | directory => rfl
        | file bytes => rfl

theorem follow_of_step (hstep : tree.step? location name = some above) :
    tree.follow location (name :: rest) = tree.follow above rest := by
  rw [follow_cons, hstep]

theorem follow_of_not_step (hstep : tree.step? location name = none) :
    tree.follow location (name :: rest) = (location, name :: rest) := by
  rw [follow_cons, hstep]

/-- Directories are made along a way until all of it leads on, or something stands in it. -/
theorem makeAlong_spec (tree : FileTree) (location : Location) (names : List String) :
    tree.Adds (tree.makeAlong location names).2
      ∧ ((tree.makeAlong location names).1 = .ok () →
          ∃ above, (tree.makeAlong location names).2.follow location names = (above, []))
      ∧ ∀ cause, (tree.makeAlong location names).1 = .error cause →
          (tree.makeAlong location names).2.Obstructed location names := by
  induction names generalizing tree location with
  | nil => exact ⟨.refl tree, fun _ => ⟨location, rfl⟩, nofun⟩
  | cons name rest ih =>
    rw [makeAlong_cons]
    cases hstep : tree.step? location name with
    | some behind =>
      obtain ⟨hadds, hok, herror⟩ := ih tree behind
      have hlater := step?_mono hadds.hasDirectory hstep
      dsimp only
      rw [follow_of_step hlater, Obstructed, follow_of_step hlater]
      exact ⟨hadds, hok, herror⟩
    | none =>
      cases hfound : tree.find? (location ++ [name]) with
      | some entry =>
        refine ⟨.refl tree, nofun, fun cause _ =>
          ⟨location, name, rest, follow_of_not_step hstep, Or.inl ?_⟩⟩
        have hdirectory := (step?_eq_none_iff.mp hstep).2.2
        cases entry with
        | file bytes => exact ⟨bytes, hfound⟩
        | directory =>
          rw [hasDirectory_iff.mpr hfound] at hdirectory
          cases hdirectory
      | none =>
        dsimp only
        split
        · rename_i hlong
          exact ⟨.refl tree, nofun, fun cause _ =>
            ⟨location, name, rest, follow_of_not_step hstep, Or.inr ⟨hfound, hlong⟩⟩⟩
        · obtain ⟨hpoint, hpoints, -⟩ := step?_eq_none_iff.mp hstep
          have hbase : (location ++ [name]).isBase = false := by
            rw [Bool.eq_false_iff]
            intro hbase
            rw [find?, if_pos hbase] at hfound
            cases hfound
          have hput : (tree.put (location ++ [name]) .directory).hasDirectory (location ++ [name])
              = true := by
            rw [hasDirectory_iff, find?_put hbase, if_pos rfl]
          obtain ⟨hadds, hok, herror⟩ :=
            ih (tree.put (location ++ [name]) .directory) (location ++ [name])
          have hlater : ((tree.put (location ++ [name]) .directory).makeAlong
              (location ++ [name]) rest).2.step? location name = some (location ++ [name]) := by
            rw [step?, if_neg hpoint, if_neg hpoints, if_pos (hadds.hasDirectory _ hput)]
          rw [follow_of_step hlater, Obstructed, follow_of_step hlater]
          exact ⟨(adds_put hfound).trans hadds, hok, herror⟩

theorem makeDirectory_eq (short : FileName.isLongPath path = false) :
    tree.makeDirectory path
      = match tree.follow (.start path) (FileName.names path) with
        | (_, []) => (.ok (), tree)
        | (location, name :: rest) =>
          if (tree.find? (location ++ [name])).isSome then
            (.error (if rest.isEmpty && FileName.endsInSlash path then .occupied else .notDirectory),
              tree)
          else if greatestDepth
              < ((name :: rest).filter fun name => name != "." && name != "..").length then
            (.error .nameTooLong, tree)
          else tree.makeAlong location (name :: rest) := by
  rw [makeDirectory, short, Location.route_eq]
  rfl

theorem LeadsInto.makeDirectory (leads : tree.LeadsInto path above) :
    tree.makeDirectory path = (.ok (), tree) := by
  rw [makeDirectory_eq leads.short, leads.follow]

/-- A directory cannot be made, and is none. -/
structure Blocked (tree : FileTree) (path : String) : Prop where
  /-- Nothing is made of it. -/
  refused : ∃ cause, tree.makeDirectory path = (.error cause, tree)
  /-- There is none already. -/
  closed : ∀ above, tree.resolve path = .ok above → tree.hasDirectory above = false

/-- A directory that a way does not lead into is none. -/
theorem closed_of_follow (h : tree.follow (.start path) (FileName.names path) = (location, name :: rest))
    (hresolve : tree.resolve path = .ok above) : tree.hasDirectory above = false := by
  rcases resolve_cases hresolve with hinto | ⟨-, -, -, -, hdirectory⟩
  · rw [hinto.follow] at h
    cases h
  · exact hdirectory

/-- Making a directory that is obstructed is refused again and again. -/
theorem Obstructed.blocked (short : FileName.isLongPath path = false)
    (h : tree.Obstructed (.start path) (FileName.names path)) : tree.Blocked path := by
  obtain ⟨above, name, rest, hfollow, hthere⟩ := h
  refine ⟨?_, fun _ => closed_of_follow hfollow⟩
  rw [makeDirectory_eq short, hfollow]
  dsimp only
  rcases hthere with ⟨bytes, hfile⟩ | ⟨hmissing, hlong⟩
  · rw [hfile]
    exact ⟨_, rfl⟩
  · rw [hmissing, if_neg (by decide)]
    split
    · exact ⟨_, rfl⟩
    · obtain ⟨done, -, -, hstuck⟩ := follow_split hfollow
      rw [makeAlong_cons, hstuck name rest rfl, hmissing]
      dsimp only
      rw [if_pos hlong]
      exact ⟨_, rfl⟩

/-- What comes of making a directory: directories are added, and from then on the path text leads into
the directory, or it is blocked. -/
structure Made (before : FileTree) (path : String) (outcome : Except PathError Unit × FileTree) :
    Prop where
  /-- Directories are added only. -/
  adds : before.Adds outcome.2
  /-- If it succeeds the path text leads into the directory. -/
  leadsInto : outcome.1 = .ok () → ∃ above, outcome.2.LeadsInto path above
  /-- Otherwise it is blocked. -/
  blocked : ∀ cause, outcome.1 = .error cause → outcome.2.Blocked path

/-- A refusal that makes nothing is repeated. -/
theorem Blocked.made (blocked : tree.Blocked path) : tree.Made path (tree.makeDirectory path) := by
  obtain ⟨cause, hrefused⟩ := blocked.refused
  rw [hrefused]
  exact ⟨.refl tree, nofun, fun _ _ => blocked⟩

/-- The names that are left of a way are made. -/
theorem made_makeAlong (hfilled : path ≠ "") (short : FileName.isLongPath path = false)
    (hfollow : tree.follow (.start path) (FileName.names path) = (location, names)) :
    tree.Made path (tree.makeAlong location names) := by
  obtain ⟨hadds, hok, herror⟩ := tree.makeAlong_spec location names
  -- What has been followed is followed again, and the rest is as it was made.
  obtain ⟨done, hnames, hdone, -⟩ := follow_split hfollow
  have hagain : (tree.makeAlong location names).2.follow (.start path) (FileName.names path)
      = (tree.makeAlong location names).2.follow location names := by
    rw [hnames, follow_append (follow_mono hadds.hasDirectory hdone)]
  refine ⟨hadds, fun hmade => ?_, fun cause hcause => Obstructed.blocked short ?_⟩
  · obtain ⟨above, habove⟩ := hok hmade
    exact ⟨above, hfilled, short, hagain.trans habove⟩
  · rw [Obstructed, hagain]
    exact herror cause hcause

theorem made_makeDirectory (tree : FileTree) (hfilled : path ≠ "") :
    tree.Made path (tree.makeDirectory path) := by
  cases hlong : FileName.isLongPath path with
  | true =>
    refine Blocked.made ⟨⟨.nameTooLong, ?_⟩, fun above habove => ?_⟩
    · rw [FileTree.makeDirectory, hlong]
      rfl
    · rw [short_of_resolve habove] at hlong
      cases hlong
  | false =>
    cases hfollow : tree.follow (.start path) (FileName.names path) with
    | mk location more =>
      have hmake := @makeDirectory_eq tree path hlong
      rw [hfollow] at hmake
      cases more with
      | nil =>
        rw [hmake]
        exact ⟨.refl tree, fun _ => ⟨location, hfilled, hlong, hfollow⟩, nofun⟩
      | cons name rest =>
        have hclosed : ∀ above, tree.resolve path = .ok above → tree.hasDirectory above = false :=
          fun _ => closed_of_follow hfollow
        dsimp only at hmake
        split at hmake
        · exact Blocked.made ⟨⟨_, hmake⟩, hclosed⟩
        · split at hmake
          · exact Blocked.made ⟨⟨_, hmake⟩, hclosed⟩
          · rw [hmake]
            exact made_makeAlong hfilled hlong hfollow

theorem writeFile?_eq (hfilled : directory ≠ "") (name : String) (bytes : List UInt8) :
    tree.writeFile? directory name bytes
      = match tree.resolve directory with
        | .error _ => none
        | .ok above =>
          if FileName.isLongName name || FileName.isLongPath (FileName.join directory name)
              || !tree.hasDirectory above || tree.hasDirectory (above ++ [name]) then none
          else some (tree.put (above ++ [name]) (.file bytes)) := by
  rw [writeFile?, String.isEmpty_eq_false_iff.mpr hfilled]
  rfl

/-- Nothing is written to a directory that is blocked. -/
theorem Blocked.writeFile? (blocked : tree.Blocked directory) (hfilled : directory ≠ "")
    (name : String) (bytes : List UInt8) : tree.writeFile? directory name bytes = none := by
  rw [writeFile?_eq hfilled]
  cases hresolve : tree.resolve directory with
  | error cause => rfl
  | ok above =>
    dsimp only
    rw [blocked.closed above hresolve, if_pos]
    rw [Bool.not_false, Bool.or_true, Bool.true_or]

/-- A file is written to a directory unless a directory has its name or the name is too long. -/
theorem LeadsInto.writeFile? (leads : tree.LeadsInto directory above) (name : String)
    (bytes : List UInt8) :
    tree.writeFile? directory name bytes
      = if FileName.isLongName name || FileName.isLongPath (FileName.join directory name)
            || tree.hasDirectory (above ++ [name]) then none
        else some (tree.put (above ++ [name]) (.file bytes)) := by
  rw [writeFile?_eq leads.filled, leads.resolve]
  dsimp only
  rw [leads.hasDirectory, Bool.not_true, Bool.or_false]

end ByteRecord.FileTree
