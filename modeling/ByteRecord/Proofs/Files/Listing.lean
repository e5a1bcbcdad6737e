import ByteRecord.Proofs.Files.FileTree

/-!
# Files below a directory

In a tree as a file system holds it, the text that a listing gives for a file leads to that file.
-/

namespace ByteRecord

namespace FileName

variable {input name : String} {below : List String}

end FileName

namespace FileTree

/-- A tree as a file system holds it. -/
structure WellFormed (tree : FileTree) : Prop where
  /-- No location has two entries. -/
  distinct : (tree.entries.map Prod.fst).Nodup
  /-- Every entry has a name in a directory. -/
  placed : ∀ entry ∈ tree.entries, ∃ above name, entry.1 = above ++ [name]
    ∧ FileName.IsProper name ∧ tree.hasDirectory above = true

variable {tree : FileTree} {location above directory : Location} {entry : FileEntry}
  {name input : String} {names below : List String} {bytes : List UInt8}

theorem isBase_concat (hproper : FileName.IsProper name) : (above ++ [name]).isBase = false := by
  rw [Location.isBase, Bool.or_eq_false_iff, beq_eq_false_iff_ne, List.all_append]
  refine ⟨fun hroot => ?_, ?_⟩
  · have hlast := congrArg List.getLast? hroot
    rw [List.getLast?_concat] at hlast
    injection hlast with hlast
    exact hproper.whole (hlast ▸ (by decide))
  · have hne : (name == "..") = false := beq_eq_false_iff_ne.mpr hproper.ne_points
    rw [List.all_cons, hne, Bool.false_and, Bool.and_false]

/-- An entry whose location has no other is found there. -/
theorem lookup_of_mem {entries : List (Location × FileEntry)}
    (distinct : (entries.map Prod.fst).Nodup) (h : (location, entry) ∈ entries) :
    entries.lookup location = some entry := by
  induction entries with
  | nil => cases h
  | cons found rest ih =>
    rw [List.map_cons, List.nodup_cons] at distinct
    rw [List.lookup_cons]
    rcases List.mem_cons.mp h with hhere | hlater
    · subst hhere
      simp
    · have hne : location ≠ found.1 := by
        rintro rfl
        exact distinct.1 (List.mem_map.mpr ⟨_, hlater, rfl⟩)
      rw [beq_eq_false_iff_ne.mpr hne]
      exact ih distinct.2 hlater

theorem WellFormed.find? (h : tree.WellFormed) (hmem : (location, entry) ∈ tree.entries) :
    tree.find? location = some entry := by
  obtain ⟨above, name, hlocation, hproper, -⟩ := h.placed _ hmem
  have hbase : location.isBase = false := by
    rw [show location = above ++ [name] from hlocation]
    exact isBase_concat hproper
  rw [FileTree.find?, hbase]
  exact lookup_of_mem h.distinct hmem

end FileTree

end ByteRecord
