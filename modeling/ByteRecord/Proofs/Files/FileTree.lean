import ByteRecord.Proofs.Files.FileName

/-!
# Ways through a tree of files

A path text that names a file leads to a directory and then to a name in it. Where it leads depends on
the directories alone, so that it still leads there when directories are made and files are written.
-/

namespace ByteRecord

/-- Where the way of a path text starts. -/
def Location.start (path : String) : Location :=
  if FileName.isAbsolute path then ["/"] else []

theorem Location.isBase_start (path : String) : (start path).isBase = true := by
  unfold start
  split
  · rfl
  · rfl

namespace FileTree

variable {tree before after : FileTree} {location above : Location} {entry : FileEntry}
  {names more : List String} {path name : String} {bytes : List UInt8}

theorem hasDirectory_iff :
    tree.hasDirectory location = true ↔ tree.find? location = some .directory := by
  rw [hasDirectory, beq_iff_eq]

theorem hasDirectory_of_isBase (h : location.isBase = true) :
    tree.hasDirectory location = true := by
  rw [hasDirectory_iff, find?, if_pos h]

/-- What is put in place of an entry is found instead of it. -/
theorem lookup_replace (entries : List (Location × FileEntry)) (other : Location) :
    (entries.map fun found => if found.1 = location then (location, entry) else found).lookup other
      = if other = location then (entries.lookup location).map fun _ => entry
        else entries.lookup other := by
  induction entries with
  | nil => simp
  | cons found rest ih =>
    rw [List.map_cons, List.lookup_cons, List.lookup_cons, List.lookup_cons, ih]
    by_cases hfound : found.1 = location
    · rw [if_pos hfound]
      by_cases hother : other = location
      · simp [hother, hfound]
      · simp [hother, hfound, beq_eq_false_iff_ne.mpr hother]
    · rw [if_neg hfound]
      by_cases hother : other = location
      · simp [hother, beq_eq_false_iff_ne.mpr (Ne.symm hfound)]
      · simp [hother]

/-- What is put at a location is found there, and nothing else has changed. -/
theorem find?_put (h : location.isBase = false) (other : Location) :
    (tree.put location entry).find? other
      = if other = location then some entry else tree.find? other := by
  by_cases hbase : other.isBase = true
  · have hne : other ≠ location := by
      rintro rfl
      rw [h] at hbase
      cases hbase
    rw [find?, if_pos hbase, if_neg hne, find?, if_pos hbase]
  · have hlookup : ∀ tree : FileTree, tree.find? other = tree.entries.lookup other :=
      fun tree => if_neg hbase
    have hhere : tree.find? location = tree.entries.lookup location := by
      rw [find?, h]
      rfl
    rw [hlookup, hlookup, put, hhere]
    split
    · rename_i hsome
      obtain ⟨found, hfound⟩ := Option.isSome_iff_exists.mp hsome
      rw [lookup_replace, hfound]
      rfl
    · rename_i hnone
      rw [Bool.not_eq_true, Option.isSome_eq_false_iff, Option.isNone_iff_eq_none] at hnone
      rw [List.lookup_append]
      by_cases hother : other = location
      · rw [hother, hnone, if_pos rfl]
        simp
      · rw [if_neg hother]
        simp [List.lookup_cons, beq_eq_false_iff_ne.mpr hother]

/-- Where a single name leads from a location, if it is a directory. -/
def step? (tree : FileTree) (location : Location) (name : String) : Option Location :=
  if name = "." then some location
  else if name = ".." then some location.up
  else if tree.hasDirectory (location ++ [name]) then some (location ++ [name])
  else none

theorem follow_cons (tree : FileTree) (location : Location) (name : String) (rest : List String) :
    tree.follow location (name :: rest)
      = match tree.step? location name with
        | some next => tree.follow next rest
        | none => (location, name :: rest) := by
  rw [follow, step?]
  split
  · rfl
  · split
    · rfl
    · dsimp only
      split
      · rfl
      · rfl

theorem step?_eq_none_iff :
    tree.step? location name = none ↔
      name ≠ "." ∧ name ≠ ".." ∧ tree.hasDirectory (location ++ [name]) = false := by
  unfold step?
  split
  · simp_all
  · split
    · simp_all
    · simp_all

theorem step?_mono
    (h : ∀ location, before.hasDirectory location = true → after.hasDirectory location = true)
    {next : Location} (hstep : before.step? location name = some next) :
    after.step? location name = some next := by
  unfold step? at hstep ⊢
  split at hstep
  · rename_i hpoint
    rw [if_pos hpoint]
    exact hstep
  · rename_i hpoint
    rw [if_neg hpoint]
    split at hstep
    · rename_i hpoints
      rw [if_pos hpoints]
      exact hstep
    · rename_i hpoints
      rw [if_neg hpoints]
      split at hstep
      · rename_i hdirectory
        rw [if_pos (h _ hdirectory)]
        exact hstep
      · cases hstep

/-- The names behind a way that has been followed to its end are followed from there. -/
theorem follow_append (h : tree.follow location names = (above, [])) :
    tree.follow location (names ++ more) = tree.follow above more := by
  induction names generalizing location with
  | nil =>
    injection h with h _
    rw [h, List.nil_append]
  | cons name rest ih =>
    rw [List.cons_append]
    rw [follow_cons] at h ⊢
    cases hstep : tree.step? location name with
    | none =>
      rw [hstep] at h
      cases h
    | some next =>
      rw [hstep] at h
      exact ih h

/-- A way is followed up to the first name that is not that of a directory. -/
theorem follow_split (h : tree.follow location names = (above, more)) :
    ∃ done, names = done ++ more ∧ tree.follow location done = (above, [])
      ∧ ∀ name rest, more = name :: rest → tree.step? above name = none := by
  induction names generalizing location with
  | nil =>
    injection h with hlocation hmore
    subst hlocation hmore
    exact ⟨[], rfl, rfl, fun name rest hrest => nomatch hrest⟩
  | cons name rest ih =>
    rw [follow_cons] at h
    cases hstep : tree.step? location name with
    | none =>
      rw [hstep] at h
      injection h with hlocation hmore
      subst hlocation hmore
      refine ⟨[], rfl, rfl, fun first others hfirst => ?_⟩
      injection hfirst with hname _
      rw [← hname, hstep]
    | some next =>
      rw [hstep] at h
      obtain ⟨done, hnames, hdone, hstuck⟩ := ih h
      refine ⟨name :: done, congrArg (name :: ·) hnames, ?_, hstuck⟩
      rw [follow_cons, hstep]
      exact hdone

/-- A way that has been followed to its end is followed there among more directories. -/
theorem follow_mono
    (h : ∀ location, before.hasDirectory location = true → after.hasDirectory location = true)
    (hfollow : before.follow location names = (above, [])) :
    after.follow location names = (above, []) := by
  induction names generalizing location with
  | nil => exact hfollow
  | cons name rest ih =>
    rw [follow_cons] at hfollow ⊢
    cases hstep : before.step? location name with
    | none =>
      rw [hstep] at hfollow
      cases hfollow
    | some next =>
      rw [hstep] at hfollow
      rw [step?_mono h hstep]
      exact ih hfollow

/-- A location and all those above it are directories. -/
def Reaches (tree : FileTree) (location : Location) : Prop :=
  ∀ above, above <+: location → tree.hasDirectory above = true

theorem isBase_of_above (h : location.isBase = true) (hahead : above <+: location) :
    above.isBase = true := by
  rw [Location.isBase, Bool.or_eq_true, beq_iff_eq] at h
  rcases h with hroot | hup
  · subst hroot
    obtain ⟨rest, hrest⟩ := hahead
    cases above with
    | nil => rfl
    | cons first others =>
      injection hrest with hfirst hothers
      rw [hfirst, (List.append_eq_nil_iff.mp hothers).1]
      rfl
  · rw [Location.isBase, Bool.or_eq_true]
    right
    rw [List.all_eq_true] at hup ⊢
    exact fun name hname => hup name (hahead.subset hname)

theorem reaches_of_isBase (h : location.isBase = true) : tree.Reaches location :=
  fun _ hahead => hasDirectory_of_isBase (isBase_of_above h hahead)

theorem Reaches.step {next : Location} (h : tree.Reaches location)
    (hstep : tree.step? location name = some next) : tree.Reaches next := by
  unfold step? at hstep
  split at hstep
  · injection hstep with hstep
    exact hstep ▸ h
  · split at hstep
    · injection hstep with hstep
      rw [← hstep, Location.up]
      split
      · exact h
      · split
        · rename_i hroot hbase
          refine reaches_of_isBase ?_
          rw [Location.isBase, Bool.or_eq_true, beq_iff_eq, or_iff_right hroot] at hbase
          rw [Location.isBase, List.all_append, hbase]
          exact Bool.or_true _
        · have hshorter := List.dropLast_prefix location
          exact fun above hahead => h above (hahead.trans hshorter)
    · split at hstep
      · rename_i hdirectory
        injection hstep with hstep
        subst hstep
        intro above hahead
        rcases List.prefix_concat_iff.mp hahead with heq | hold
        · rw [heq]
          exact hdirectory
        · exact h above hold
      · cases hstep

/-- A way from a directory ends at one. -/
theorem Reaches.follow (h : tree.Reaches location)
    (hfollow : tree.follow location names = (above, more)) : tree.Reaches above := by
  induction names generalizing location with
  | nil =>
    injection hfollow with hfollow _
    exact hfollow ▸ h
  | cons name rest ih =>
    rw [follow_cons] at hfollow
    cases hstep : tree.step? location name with
    | none =>
      rw [hstep] at hfollow
      injection hfollow with hfollow _
      exact hfollow ▸ h
    | some next =>
      rw [hstep] at hfollow
      exact ih (h.step hstep) hfollow

/-- A path text leads to a directory. -/
structure LeadsInto (tree : FileTree) (path : String) (above : Location) : Prop where
  /-- There is something of it. -/
  filled : path ≠ ""
  /-- It is not too long. -/
  short : FileName.isLongPath path = false
  /-- Its names are those of directories. -/
  follow : tree.follow (.start path) (FileName.names path) = (above, [])

/-- A path text leads to a name in a directory. Whether there is a file of that name is another
question. -/
structure LeadsTo (tree : FileTree) (path : String) (above : Location) (name : String) : Prop where
  /-- There is something of it. -/
  filled : path ≠ ""
  /-- It is not too long. -/
  short : FileName.isLongPath path = false
  /-- It may be that of a file. -/
  slashless : FileName.endsInSlash path = false
  /-- The names before the last one are those of directories. -/
  follow : ∃ done, FileName.names path = done ++ [name]
    ∧ tree.follow (.start path) done = (above, [])
  /-- The last name does not stay. -/
  ne_point : name ≠ "."
  /-- The last name does not go up. -/
  ne_points : name ≠ ".."
  /-- The last name is not too long. -/
  name_short : FileName.isLongName name = false

variable {directory : String} {next : FileTree} {made : Except PathError Unit}

theorem LeadsInto.mono
    (h : ∀ location, before.hasDirectory location = true → after.hasDirectory location = true)
    (leads : before.LeadsInto path above) : after.LeadsInto path above :=
  ⟨leads.filled, leads.short, follow_mono h leads.follow⟩

theorem LeadsTo.mono
    (h : ∀ location, before.hasDirectory location = true → after.hasDirectory location = true)
    (leads : before.LeadsTo path above name) : after.LeadsTo path above name := by
  obtain ⟨done, hnames, hdone⟩ := leads.follow
  exact ⟨leads.filled, leads.short, leads.slashless, ⟨done, hnames, follow_mono h hdone⟩,
    leads.ne_point, leads.ne_points, leads.name_short⟩

theorem LeadsTo.last_eq (leads : tree.LeadsTo path above name) :
    FileName.last path = name.toList ∧ FileName.last path ≠ [] := by
  obtain ⟨done, hnames, -⟩ := leads.follow
  exact FileName.last_of_names hnames leads.slashless

/-- A name below a text that leads to a directory. -/
theorem LeadsInto.join (leads : tree.LeadsInto directory above) (hproper : FileName.IsProper name)
    (short : FileName.isLongPath (FileName.join directory name) = false) :
    tree.LeadsTo (FileName.join directory name) above name := by
  refine ⟨FileName.join_ne_empty hproper, short, FileName.endsInSlash_join hproper,
    ⟨_, FileName.names_join leads.filled hproper, ?_⟩, hproper.ne_point, hproper.ne_points,
    hproper.short⟩
  have hstart : Location.start (FileName.join directory name) = .start directory := by
    rw [Location.start, Location.start, FileName.isAbsolute, FileName.isAbsolute,
      FileName.head?_join leads.filled]
  rw [hstart]
  exact leads.follow

theorem resolve_eq (hfilled : path ≠ "") (short : FileName.isLongPath path = false) :
    tree.resolve path
      = match tree.follow (.start path) (FileName.names path) with
        | (location, []) => .ok location
        | (location, name :: rest) =>
          if FileName.isLongName name then .error .nameTooLong
          else if (tree.find? (location ++ [name])).isNone then .error .missing
          else if rest.isEmpty && !FileName.endsInSlash path then .ok (location ++ [name])
          else .error .notDirectory := by
  rw [resolve, String.isEmpty_eq_false_iff.mpr hfilled, short, Location.route_eq]
  rfl

theorem LeadsInto.resolve (leads : tree.LeadsInto path above) : tree.resolve path = .ok above := by
  rw [resolve_eq leads.filled leads.short, leads.follow]

theorem LeadsInto.hasDirectory (leads : tree.LeadsInto path above) :
    tree.hasDirectory above = true :=
  (reaches_of_isBase (Location.isBase_start path)).follow leads.follow above (List.prefix_refl _)

theorem lookup?_eq_directory (hresolve : tree.resolve path = .ok location)
    (hdirectory : tree.hasDirectory location = true) : tree.lookup? path = some .directory := by
  rw [lookup?, hresolve]
  exact hasDirectory_iff.mp hdirectory

theorem LeadsInto.lookup? (leads : tree.LeadsInto path above) :
    tree.lookup? path = some .directory :=
  lookup?_eq_directory leads.resolve leads.hasDirectory

theorem ne_empty_of_resolve (h : tree.resolve path = .ok location) : path ≠ "" := by
  rintro rfl
  cases h

theorem short_of_resolve (h : tree.resolve path = .ok location) :
    FileName.isLongPath path = false := by
  rw [Bool.eq_false_iff]
  intro hlong
  rw [FileTree.resolve, hlong] at h
  split at h
  · cases h
  · cases h

/-- A path text names a directory that it leads to, or something else that it leads to the name of. -/
theorem resolve_cases (h : tree.resolve path = .ok location) :
    tree.LeadsInto path location
      ∨ ∃ above name, tree.LeadsTo path above name ∧ location = above ++ [name]
          ∧ tree.hasDirectory location = false := by
  have hfilled := ne_empty_of_resolve h
  have short := short_of_resolve h
  rw [resolve_eq hfilled short] at h
  cases hfollow : tree.follow (.start path) (FileName.names path) with
  | mk above more =>
    rw [hfollow] at h
    cases more with
    | nil =>
      injection h with h
      exact Or.inl ⟨hfilled, short, h ▸ hfollow⟩
    | cons name rest =>
      dsimp only at h
      split at h
      · cases h
      · rename_i hname
        split at h
        · cases h
        · split at h
          · rename_i hend
            injection h with h
            rw [Bool.and_eq_true, List.isEmpty_iff, Bool.not_eq_true'] at hend
            obtain ⟨rfl, hslash⟩ := hend
            obtain ⟨done, hnames, hdone, hstuck⟩ := follow_split hfollow
            obtain ⟨hpoint, hpoints, hdirectory⟩ := step?_eq_none_iff.mp (hstuck name [] rfl)
            exact Or.inr ⟨above, name, ⟨hfilled, short, hslash, ⟨done, hnames, hdone⟩, hpoint, hpoints,
              Bool.eq_false_iff.mpr hname⟩, h.symm, h ▸ hdirectory⟩
          · cases h

/-- What a path text names that leads to the name of something else than a directory. -/
theorem LeadsTo.lookup? (leads : tree.LeadsTo path above name)
    (hfile : tree.find? (above ++ [name]) = some (.file bytes)) :
    tree.lookup? path = some (.file bytes) := by
  obtain ⟨done, hnames, hdone⟩ := leads.follow
  have hdirectory : tree.hasDirectory (above ++ [name]) = false := by
    rw [Bool.eq_false_iff, ne_eq, hasDirectory_iff, hfile]
    rintro ⟨⟩
  have hfollow : tree.follow (.start path) (FileName.names path) = (above, [name]) := by
    rw [hnames, follow_append hdone]
    rw [follow_cons, step?_eq_none_iff.mpr ⟨leads.ne_point, leads.ne_points, hdirectory⟩]
  rw [FileTree.lookup?, resolve_eq leads.filled leads.short, hfollow]
  dsimp only
  rw [leads.name_short, hfile, leads.slashless]
  exact hfile

/-- A path text names a file if it leads to the name of one. -/
theorem lookup?_eq_file_iff :
    tree.lookup? path = some (.file bytes) ↔
      ∃ above name, tree.LeadsTo path above name
        ∧ tree.find? (above ++ [name]) = some (.file bytes) := by
  refine ⟨fun h => ?_, fun ⟨above, name, leads, hfile⟩ => leads.lookup? hfile⟩
  rw [FileTree.lookup?] at h
  split at h
  · rename_i location hlocation
    rcases resolve_cases hlocation with hinto | ⟨above, name, leads, rfl, -⟩
    · rw [hasDirectory_iff.mp hinto.hasDirectory] at h
      cases h
    · exact ⟨above, name, leads, h⟩
  · cases h

/-- A path text that names a file has something behind its last slash. -/
theorem last_ne_nil_of_lookup? (h : tree.lookup? path = some (.file bytes)) :
    FileName.last path ≠ [] := by
  obtain ⟨above, name, leads, -⟩ := lookup?_eq_file_iff.mp h
  exact leads.last_eq.2

/-- A file that is kept is still found under its path text. -/
theorem lookup?_of_kept
    (directories : ∀ location, before.hasDirectory location = true →
      after.hasDirectory location = true)
    (kept : ∀ above name, FileName.last path = name.toList →
      before.find? (above ++ [name]) = some (.file bytes) →
        after.find? (above ++ [name]) = some (.file bytes))
    (h : before.lookup? path = some (.file bytes)) : after.lookup? path = some (.file bytes) := by
  obtain ⟨above, name, leads, hfile⟩ := lookup?_eq_file_iff.mp h
  exact (leads.mono directories).lookup? (kept above name leads.last_eq.1 hfile)

/-- The second tree is the first one with more directories. -/
def Adds (before after : FileTree) : Prop :=
  ∃ made : List Location, after.entries = before.entries ++ made.map (·, .directory)

theorem Adds.refl (tree : FileTree) : tree.Adds tree := ⟨[], (List.append_nil _).symm⟩

theorem Adds.trans (hbefore : before.Adds tree) (hafter : tree.Adds after) : before.Adds after := by
  obtain ⟨first, hfirst⟩ := hbefore
  obtain ⟨second, hsecond⟩ := hafter
  exact ⟨first ++ second, by rw [hsecond, hfirst, List.append_assoc, List.map_append]⟩

theorem adds_put (h : tree.find? location = none) :
    tree.Adds (tree.put location .directory) := by
  refine ⟨[location], ?_⟩
  rw [put, h]
  rfl

theorem Adds.find? (h : before.Adds after) (hfound : before.find? location = some entry) :
    after.find? location = some entry := by
  obtain ⟨made, hmade⟩ := h
  unfold FileTree.find? at hfound ⊢
  split
  · rename_i hbase
    rwa [if_pos hbase] at hfound
  · rename_i hbase
    rw [if_neg hbase] at hfound
    rw [hmade, List.lookup_append, hfound, Option.some_or]

theorem Adds.hasDirectory (h : before.Adds after) (location : Location)
    (hdirectory : before.hasDirectory location = true) : after.hasDirectory location = true :=
  hasDirectory_iff.mpr (h.find? (hasDirectory_iff.mp hdirectory))

/-- The same files are below a location. -/
theorem Adds.filesBelow (h : before.Adds after) (above : Location) :
    after.filesBelow above = before.filesBelow above := by
  obtain ⟨made, hmade⟩ := h
  rw [FileTree.filesBelow, FileTree.filesBelow, hmade]
  refine congrArg (List.mergeSort · _) ?_
  rw [List.filterMap_append, List.filterMap_map]
  refine (congrArg (_ ++ ·) (List.filterMap_eq_nil_iff.mpr ?_)).trans (List.append_nil _)
  exact fun _ _ => rfl

end FileTree

end ByteRecord
