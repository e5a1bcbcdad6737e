import ByteRecord.Files.FileTree
import Mathlib.Data.List.Basic

/-!
# Parts of path texts

A text that is joined to another puts one name behind those of the other, and nothing of the other
changes. The name that an output is given ends in the extension of its kind, whatever the input is
called.
-/

namespace ByteRecord

namespace FileName

/-- A name that a file or directory can have. -/
structure IsProper (name : String) : Prop where
  /-- There is something of it. -/
  filled : name ≠ ""
  /-- It is a single name. -/
  whole : '/' ∉ name.toList
  /-- It does not stay. -/
  ne_point : name ≠ "."
  /-- It does not go up. -/
  ne_points : name ≠ ".."
  /-- It is not too long. -/
  short : isLongName name = false

instance (name : String) : Decidable (IsProper name) :=
  decidable_of_iff
    (name ≠ "" ∧ '/' ∉ name.toList ∧ name ≠ "." ∧ name ≠ ".." ∧ isLongName name = false)
    ⟨fun ⟨filled, whole, point, points, short⟩ => ⟨filled, whole, point, points, short⟩,
      fun h => ⟨h.filled, h.whole, h.ne_point, h.ne_points, h.short⟩⟩

/-- The names on the way, from wherever it starts. -/
def names (path : String) : List String :=
  ((pieces path).filter fun piece => !piece.isEmpty).map String.ofList

variable {read front back chars : List Char} {path directory name : String}

theorem go_of_whole (h : '/' ∉ chars) : pieces.go read chars = [read.reverse ++ chars] := by
  induction chars generalizing read with
  | nil => rw [pieces.go, List.append_nil]
  | cons c rest ih =>
    rw [List.mem_cons, not_or] at h
    rw [pieces.go, if_neg (Ne.symm h.1), ih h.2, List.reverse_cons, List.append_assoc,
      List.singleton_append]

/-- A text is cut at its slashes. -/
theorem go_slash : pieces.go read (front ++ '/' :: back)
    = pieces.go read front ++ pieces.go [] back := by
  induction front generalizing read with
  | nil => rfl
  | cons c rest ih =>
    rw [List.cons_append, pieces.go, pieces.go]
    split
    · rw [ih, List.cons_append]
    · exact ih

theorem whole_of_mem_go {piece : List Char} (hread : '/' ∉ read)
    (h : piece ∈ pieces.go read chars) : '/' ∉ piece := by
  induction chars generalizing read with
  | nil =>
    rw [pieces.go, List.mem_singleton] at h
    rwa [h, List.mem_reverse]
  | cons c rest ih =>
    rw [pieces.go] at h
    split at h
    · rcases List.mem_cons.mp h with hfirst | hlater
      · rwa [hfirst, List.mem_reverse]
      · exact ih List.not_mem_nil hlater
    · rename_i hc
      refine ih ?_ h
      rw [List.mem_cons, not_or]
      exact ⟨Ne.symm hc, hread⟩

/-- The last part is empty only behind a slash, or if there is nothing at all. -/
theorem exists_last_go (hopen : chars.getLast? ≠ some '/') (hfilled : read ≠ [] ∨ chars ≠ []) :
    ∃ before piece, piece ≠ [] ∧ pieces.go read chars = before ++ [piece] := by
  induction chars generalizing read with
  | nil =>
    refine ⟨[], read.reverse, ?_, rfl⟩
    rw [ne_eq, List.reverse_eq_nil_iff]
    exact hfilled.resolve_right (fun h => h rfl)
  | cons c rest ih =>
    rw [List.getLast?_cons] at hopen
    have hrest : rest.getLast? ≠ some '/' := by
      intro hslash
      rw [hslash] at hopen
      exact hopen rfl
    rw [pieces.go]
    split
    · rename_i hc
      have hmore : rest ≠ [] := by
        rintro rfl
        exact hopen (congrArg some hc)
      obtain ⟨before, piece, hpiece, hgo⟩ := @ih [] hrest (Or.inr hmore)
      exact ⟨read.reverse :: before, piece, hpiece, by rw [hgo, List.cons_append]⟩
    · exact ih hrest (Or.inl (List.cons_ne_nil _ _))

/-- Below a text that is not empty, a name is the last part. -/
theorem pieces_join (hfilled : directory ≠ "") (hwhole : '/' ∉ name.toList) :
    ∃ before, pieces (join directory name) = before ++ [name.toList]
      ∧ (before.filter fun piece => !piece.isEmpty)
        = (pieces directory).filter fun piece => !piece.isEmpty := by
  have hname : pieces.go [] name.toList = [name.toList] := go_of_whole hwhole
  unfold join
  rw [String.isEmpty_eq_false_iff.mpr hfilled, Bool.false_or]
  split
  · rename_i hslash
    rw [endsInSlash, beq_iff_eq, List.getLast?_eq_some_iff] at hslash
    obtain ⟨front, hfront⟩ := hslash
    refine ⟨pieces.go [] front, ?_, ?_⟩
    · rw [pieces, String.toList_append, hfront, List.append_assoc, List.singleton_append, go_slash,
        hname]
    · rw [pieces, hfront, go_slash, List.filter_append]
      exact (List.append_nil _).symm
  · refine ⟨pieces directory, ?_, rfl⟩
    rw [pieces, String.toList_append, String.toList_append, List.append_assoc]
    exact go_slash.trans (congrArg _ hname)

theorem names_join (hfilled : directory ≠ "") (hproper : IsProper name) :
    names (join directory name) = names directory ++ [name] := by
  obtain ⟨before, hpieces, hbefore⟩ := pieces_join hfilled hproper.whole
  have hname : name.toList.isEmpty = false := by
    rw [List.isEmpty_eq_false_iff, ne_eq, String.toList_eq_nil_iff]
    exact hproper.filled
  rw [names, hpieces, List.filter_append, hbefore, List.map_append, names,
    List.filter_cons_of_pos (by rw [hname]; rfl)]
  simp

theorem last_join (hfilled : directory ≠ "") (hwhole : '/' ∉ name.toList) :
    last (join directory name) = name.toList := by
  obtain ⟨before, hpieces, -⟩ := pieces_join hfilled hwhole
  rw [last, hpieces, List.getLast?_concat, Option.getD_some]

theorem join_ne_empty (hproper : IsProper name) : join directory name ≠ "" := by
  intro h
  have hchars := congrArg String.toList h
  unfold join at hchars
  split at hchars
  · rw [String.toList_append] at hchars
    exact hproper.filled (String.toList_eq_nil_iff.mp (List.append_eq_nil_iff.mp hchars).2)
  · rw [String.toList_append] at hchars
    exact hproper.filled (String.toList_eq_nil_iff.mp (List.append_eq_nil_iff.mp hchars).2)

/-- A joined text starts where the first one does. -/
theorem head?_join (hfilled : directory ≠ "") :
    (join directory name).toList.head? = directory.toList.head? := by
  have hchars : directory.toList ≠ [] := mt String.toList_eq_nil_iff.mp hfilled
  obtain ⟨first, rest, hfirst⟩ := List.exists_cons_of_ne_nil hchars
  unfold join
  split
  · rw [String.toList_append, hfirst, List.cons_append, List.head?_cons, List.head?_cons]
  · rw [String.toList_append, String.toList_append, hfirst, List.cons_append, List.cons_append,
      List.head?_cons, List.head?_cons]

theorem endsInSlash_join (hproper : IsProper name) : endsInSlash (join directory name) = false := by
  have hchars : name.toList ≠ [] := mt String.toList_eq_nil_iff.mp hproper.filled
  have hlast : (join directory name).toList.getLast? = name.toList.getLast? := by
    unfold join
    split
    · rw [String.toList_append, List.getLast?_append_of_ne_nil _ hchars]
    · rw [String.toList_append, List.getLast?_append_of_ne_nil _ hchars]
  rw [endsInSlash, hlast, beq_eq_false_iff_ne]
  intro hslash
  exact hproper.whole (List.mem_of_getLast? hslash)

theorem whole_last (path : String) : '/' ∉ last path := by
  unfold last
  cases hlast : (pieces path).getLast? with
  | none => exact List.not_mem_nil
  | some piece => exact whole_of_mem_go List.not_mem_nil (List.mem_of_getLast? hlast)

/-- The last name is what stands behind the last slash, if anything does. -/
theorem last_of_names {before : List String} (h : names path = before ++ [name])
    (hopen : endsInSlash path = false) : last path = name.toList ∧ last path ≠ [] := by
  have hfilled : path.toList ≠ [] := by
    intro hempty
    rw [names, pieces, hempty] at h
    simp [pieces.go] at h
  have hlast : path.toList.getLast? ≠ some '/' := by
    rwa [endsInSlash, beq_eq_false_iff_ne] at hopen
  obtain ⟨front, piece, hpiece, hgo⟩ := @exists_last_go [] _ hlast (Or.inr hfilled)
  have hpieces : pieces path = front ++ [piece] := hgo
  have hkept : [piece].filter (fun piece => !piece.isEmpty) = [piece] := by
    simp [hpiece]
  rw [names, hpieces, List.filter_append, hkept, List.map_append, List.map_singleton] at h
  obtain ⟨-, hname⟩ := List.append_inj' h rfl
  rw [last, hpieces, List.getLast?_concat, Option.getD_some, ← List.singleton_inj.mp hname,
    String.toList_ofList]
  exact ⟨rfl, hpiece⟩

/-- A name that is not empty has something before its extension. -/
theorem extensionStart_pos (h : chars ≠ []) : 0 < extensionStart chars := by
  have hlength := List.length_pos_iff.mpr h
  unfold extensionStart
  dsimp only
  split
  · exact hlength
  · rename_i hcond
    simp only [Bool.or_eq_true, decide_eq_true_eq, not_or] at hcond
    omega

/-- The extension of a name that has something before its last point. -/
theorem extensionStart_append {stem letters : List Char} (hstem : stem ≠ []) (hletters : letters ≠ [])
    (hplain : '.' ∉ letters) : extensionStart (stem ++ '.' :: letters) = stem.length := by
  have hbehind : ((stem ++ '.' :: letters).reverse.takeWhile (· != '.')).length
      = letters.length := by
    rw [List.reverse_append, List.reverse_cons, List.append_assoc,
      List.takeWhile_append_of_pos, List.singleton_append, List.takeWhile_cons_of_neg (by decide),
      List.append_nil, List.length_reverse]
    intro c hc
    rw [bne_iff_ne]
    rintro rfl
    exact hplain (List.mem_reverse.mp hc)
  have hlength : (stem ++ '.' :: letters).length = stem.length + 1 + letters.length := by
    rw [List.length_append, List.length_cons]
    omega
  have hpos := List.length_pos_iff.mpr hstem
  have hpoints : stem ++ '.' :: letters ≠ ['.', '.'] := by
    intro h
    have hcount := congrArg List.length h
    rw [hlength] at hcount
    have hmore := List.length_pos_iff.mpr hletters
    have htwo : (['.', '.'] : List Char).length = 2 := rfl
    omega
  unfold extensionStart
  dsimp only
  rw [hbehind, hlength, if_neg]
  · omega
  · simp only [Bool.or_eq_true, decide_eq_true_eq, not_or]
    exact ⟨⟨by omega, by omega⟩, hpoints⟩

end FileName

open FileName in
/-- A path text starts at the root of all files or at the working directory, and its names follow. -/
theorem Location.route_eq (path : String) :
    route path = (if isAbsolute path then ["/"] else [], names path) := by
  have hslash : "/" ∉ names path := by
    intro h
    obtain ⟨piece, hpiece, heq⟩ := List.mem_map.mp h
    have hwhole := whole_of_mem_go List.not_mem_nil (List.mem_filter.mp hpiece).1
    have hchars := congrArg String.toList heq
    rw [String.toList_ofList] at hchars
    rw [hchars] at hwhole
    exact hwhole (by decide)
  have hcomponents : components path
      = if isAbsolute path then "/" :: names path else names path := rfl
  unfold route
  by_cases habsolute : isAbsolute path = true
  · rw [hcomponents, if_pos habsolute, if_pos habsolute]
    rfl
  · rw [hcomponents, if_neg habsolute, if_neg habsolute]
    split
    · rename_i names hmatch
      rw [hmatch] at hslash
      exact absurd List.mem_cons_self hslash
    · rfl

end ByteRecord
