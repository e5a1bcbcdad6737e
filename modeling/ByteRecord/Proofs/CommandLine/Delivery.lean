import ByteRecord.Proofs.CommandLine.Dealing
import ByteRecord.Proofs.Files.Making

/-!
# Delivering output

While a run goes on the tree only changes where output goes: first the output directory is made, or it
turns out to be blocked, and then files are written to it. None of them is an input that the run is
for, since the extensions of inputs and outputs differ. So what is done about an input does not depend
on the inputs that came before it.
-/

namespace ByteRecord

namespace Session

/-- Making a directory changes the tree and may be complained about. -/
theorem makeDirectory_eq (s : Session) {path : String} (hfilled : path ≠ "") :
    ∃ lines, IsQuiet lines
      ∧ s.makeDirectory path = ⟨s.messages ++ lines, (s.tree.makeDirectory path).2⟩ := by
  rw [makeDirectory, String.isEmpty_eq_false_iff.mpr hfilled]
  cases s.tree.makeDirectory path with
  | mk made next =>
    cases made with
    | ok => exact ⟨[], List.forall_mem_nil _, congrArg (Session.mk · next) (List.append_nil _).symm⟩
    | error cause => exact ⟨[.complaint (.blockedDirectory path cause)], isQuiet_singleton rfl, rfl⟩

end Session

namespace Job

variable {job : Job} {start tree : FileTree} {path other : String} {bytes : List UInt8}

theorem directory_ne_empty (job : Job) : job.directory ≠ "" := by
  unfold directory
  split
  · exact FileName.join_ne_empty (by decide)
  · exact FileName.join_ne_empty (by decide)

/-- The letters of the extension that outputs have. -/
theorem toList_outputName (job : Job) (path : String) :
    ∃ letters : List Char, letters ≠ [] ∧ '.' ∉ letters ∧ '/' ∉ letters
      ∧ (job.outputName path).toList = (FileName.stem path).toList ++ '.' :: letters
      ∧ (('.' :: letters).map Char.toLower == ".json".toList.map Char.toLower)
        = !job.settings.encode := by
  unfold outputName
  cases job.settings.encode with
  | true => exact ⟨['b', 'i', 'n'], by decide, by decide, by decide, String.toList_append, by decide⟩
  | false =>
    exact ⟨['j', 's', 'o', 'n'], by decide, by decide, by decide, String.toList_append, by decide⟩

theorem whole_outputName (job : Job) (path : String) : '/' ∉ (job.outputName path).toList := by
  obtain ⟨letters, -, -, hslash, hchars, -⟩ := job.toList_outputName path
  rw [hchars, List.mem_append, List.mem_cons, not_or, not_or]
  refine ⟨fun hstem => ?_, by decide, hslash⟩
  rw [FileName.stem, String.toList_ofList] at hstem
  exact FileName.whole_last path (List.mem_of_mem_take hstem)

/-- An output can be the name of a file, unless it is too long. -/
theorem isProper_outputName (short : FileName.isLongName (job.outputName path) = false) :
    FileName.IsProper (job.outputName path) := by
  obtain ⟨letters, hletters, hpoint, -, hchars, -⟩ := job.toList_outputName path
  have hlast : (job.outputName path).toList.getLast? ≠ some '.' := by
    rw [hchars, ← List.singleton_append, ← List.append_assoc,
      List.getLast?_append_of_ne_nil _ hletters]
    exact fun h => hpoint (List.mem_of_getLast? h)
  refine ⟨?_, ?_, ?_, ?_, short⟩
  · intro h
    rw [h] at hchars
    exact List.append_ne_nil_of_right_ne_nil _ (List.cons_ne_nil _ _) hchars.symm
  · exact job.whole_outputName path
  · intro h
    rw [h] at hlast
    exact hlast rfl
  · intro h
    rw [h] at hlast
    exact hlast rfl

/-- The run is not for a file that is called as an output is. -/
theorem isFor_of_last (hlast : FileName.last path = (job.outputName other).toList)
    (hfilled : FileName.last other ≠ []) : job.isFor path = false := by
  obtain ⟨letters, hletters, hpoint, -, hchars, hsame⟩ := job.toList_outputName other
  have hstem : (FileName.stem other).toList ≠ [] := by
    rw [FileName.stem, String.toList_ofList]
    intro hnone
    have hstart := FileName.extensionStart_pos hfilled
    rcases List.take_eq_nil_iff.mp hnone with hzero | hempty
    · omega
    · exact hfilled hempty
  have hextension : FileName.extension path = '.' :: letters := by
    rw [FileName.extension, hlast, hchars, FileName.extensionStart_append hstem hletters hpoint,
      List.drop_left]
  rw [isFor, FileName.hasExtension, hextension, hsame]
  cases job.settings.encode with
  | true => rfl
  | false => rfl

/-- The tree once the output directory has been made, or has turned out to be blocked. -/
def prepared (job : Job) (start : FileTree) : FileTree := (start.makeDirectory job.directory).2

/-- The output directory has been made and files may have been written to it. -/
structure Settled (job : Job) (start tree : FileTree) : Prop where
  /-- There are no further directories. -/
  directories : ∀ location, tree.hasDirectory location = (job.prepared start).hasDirectory location
  /-- What is not called as an output is untouched. -/
  untouched : ∀ above name bytes,
    (job.prepared start).find? (above ++ [name]) = some (.file bytes) →
      (∀ path, FileName.last path ≠ [] → name ≠ job.outputName path) →
        tree.find? (above ++ [name]) = some (.file bytes)
  /-- Nothing is written to a directory that is blocked. -/
  blocked : (job.prepared start).Blocked job.directory → tree = job.prepared start

/-- The trees of a run: that of the start, and those once the output directory has been made. -/
def Reached (job : Job) (start tree : FileTree) : Prop := tree = start ∨ job.Settled start tree

theorem settled_prepared (job : Job) (start : FileTree) :
    job.Settled start (job.prepared start) :=
  ⟨fun _ => rfl, fun _ _ _ hfound _ => hfound, fun _ => rfl⟩

theorem adds_prepared (job : Job) (start : FileTree) : start.Adds (job.prepared start) :=
  (start.made_makeDirectory job.directory_ne_empty).adds

/-- Either the output directory is there, or it is blocked. -/
theorem leadsInto_or_blocked (job : Job) (start : FileTree) :
    (∃ above, (job.prepared start).LeadsInto job.directory above)
      ∨ (job.prepared start).Blocked job.directory := by
  have made := start.made_makeDirectory job.directory_ne_empty
  cases hmade : (start.makeDirectory job.directory).1 with
  | ok => exact Or.inl (made.leadsInto hmade)
  | error cause => exact Or.inr (made.blocked cause hmade)

theorem Settled.leadsInto (h : job.Settled start tree) {above : Location}
    (leads : (job.prepared start).LeadsInto job.directory above) :
    tree.LeadsInto job.directory above :=
  leads.mono fun location hdirectory => (h.directories location).trans hdirectory

/-- Making the output directory once more changes nothing. -/
theorem Settled.makeDirectory (h : job.Settled start tree) :
    (tree.makeDirectory job.directory).2 = tree := by
  rcases job.leadsInto_or_blocked start with ⟨above, leads⟩ | blocked
  · rw [(h.leadsInto leads).makeDirectory]
  · obtain ⟨cause, hrefused⟩ := blocked.refused
    rw [h.blocked blocked, hrefused]

theorem Reached.settled (h : job.Reached start tree) :
    job.Settled start (tree.makeDirectory job.directory).2
      ∧ ∀ other content, tree.lookup? other = some (.file content) →
          (tree.makeDirectory job.directory).2.lookup? other = some (.file content) := by
  rcases h with hstart | hsettled
  · rw [hstart]
    refine ⟨job.settled_prepared start, fun other content hfound => ?_⟩
    have hadds := job.adds_prepared start
    exact FileTree.lookup?_of_kept hadds.hasDirectory (fun _ _ _ hfile => hadds.find? hfile) hfound
  · rw [hsettled.makeDirectory]
    exact ⟨hsettled, fun _ _ hfound => hfound⟩

/-- An input that the run is for is what it was at the start. -/
theorem Reached.lookup? (h : job.Reached start tree) (hfor : job.isFor path = true)
    (hfound : start.lookup? path = some (.file bytes)) : tree.lookup? path = some (.file bytes) := by
  rcases h with hstart | hsettled
  · rw [hstart]
    exact hfound
  · have hadds := job.adds_prepared start
    refine FileTree.lookup?_of_kept (fun location hdirectory => ?_) (fun above name hlast hfile => ?_)
      hfound
    · rw [hsettled.directories]
      exact hadds.hasDirectory location hdirectory
    · refine hsettled.untouched above name bytes (hadds.find? hfile) fun other hfilled hname => ?_
      rw [hname] at hlast
      rw [isFor_of_last hlast hfilled] at hfor
      cases hfor

/-- What a write to the output directory leaves: the file, and everything that is called otherwise. -/
structure Written (job : Job) (start tree : FileTree) (path : String) (bytes : List UInt8)
    (next : FileTree) : Prop where
  /-- Only a file has been written. -/
  settled : job.Settled start next
  /-- It is found under the name of the output. -/
  here : next.lookup? (FileName.join job.directory (job.outputName path)) = some (.file bytes)
  /-- Other files are what they were. -/
  elsewhere : ∀ other content, tree.lookup? other = some (.file content) →
    FileName.last other ≠ (job.outputName path).toList → next.lookup? other = some (.file content)

/-- Where the output of an input goes below the output directory. -/
def outputLocation (job : Job) (above : Location) (path : String) : Location :=
  above ++ [job.outputName path]

/-- Whether an output can be written depends on the prepared tree only. -/
theorem Settled.writeFile? (h : job.Settled start tree) {above : Location}
    (leads : (job.prepared start).LeadsInto job.directory above) (path : String)
    (bytes : List UInt8) :
    tree.writeFile? job.directory (job.outputName path) bytes
      = if FileName.isLongName (job.outputName path)
            || FileName.isLongPath (FileName.join job.directory (job.outputName path))
            || (job.prepared start).hasDirectory (job.outputLocation above path) then none
        else some (tree.put (job.outputLocation above path) (.file bytes)) := by
  rw [(h.leadsInto leads).writeFile?, ← h.directories]
  rfl

/-- Files that are called otherwise than an output are what they were when it is put down. -/
theorem find?_put_output {above higher : Location} {name : String}
    (hbase : (job.outputLocation above path).isBase = false) (hname : name ≠ job.outputName path) :
    (tree.put (job.outputLocation above path) (.file bytes)).find? (higher ++ [name])
      = tree.find? (higher ++ [name]) := by
  rw [FileTree.find?_put hbase, if_neg]
  intro hsame
  exact hname (List.singleton_inj.mp (List.append_inj' hsame rfl).2)

/-- Putting down an output where no directory is. -/
theorem Settled.put (h : job.Settled start tree) {above : Location}
    (leads : (job.prepared start).LeadsInto job.directory above)
    (hfilled : FileName.last path ≠ [])
    (hfree : (job.prepared start).hasDirectory (job.outputLocation above path) = false)
    (hbase : (job.outputLocation above path).isBase = false) :
    job.Settled start (tree.put (job.outputLocation above path) (.file bytes)) := by
  refine ⟨fun location => ?_, fun higher name content hfile hother => ?_, fun blocked => ?_⟩
  · rw [FileTree.hasDirectory, FileTree.find?_put hbase]
    split
    · rename_i hhere
      rw [hhere, hfree]
      rfl
    · rw [← FileTree.hasDirectory, h.directories]
  · rw [find?_put_output hbase (hother path hfilled)]
    exact h.untouched higher name content hfile hother
  · obtain ⟨cause, hrefused⟩ := blocked.refused
    rw [leads.makeDirectory] at hrefused
    cases hrefused

/-- What is written where no directory is, under a name that is not too long. -/
theorem Settled.written (h : job.Settled start tree) {above : Location}
    (leads : (job.prepared start).LeadsInto job.directory above)
    (hfilled : FileName.last path ≠ [])
    (hname : FileName.isLongName (job.outputName path) = false)
    (short : FileName.isLongPath (FileName.join job.directory (job.outputName path)) = false)
    (hfree : (job.prepared start).hasDirectory (job.outputLocation above path) = false) :
    job.Written start tree path bytes
      (tree.put (job.outputLocation above path) (.file bytes)) := by
  have hbase : (job.outputLocation above path).isBase = false := by
    rw [Bool.eq_false_iff]
    intro hbase
    rw [FileTree.hasDirectory_of_isBase hbase] at hfree
    cases hfree
  have hnext := @h.put _ _ _ path bytes above leads hfilled hfree hbase
  refine ⟨hnext, ?_, fun other content hfound hother => ?_⟩
  · refine ((hnext.leadsInto leads).join (isProper_outputName hname) short).lookup? ?_
    exact (FileTree.find?_put hbase _).trans (if_pos rfl)
  · refine FileTree.lookup?_of_kept (fun location hthere => ?_) (fun higher name hlast hfile => ?_)
      hfound
    · rw [hnext.directories, ← h.directories]
      exact hthere
    · rw [find?_put_output hbase fun hname => hother (hlast.trans (congrArg _ hname))]
      exact hfile

/-- Whether an output can be written does not depend on what has been written before. -/
theorem written_or_not (job : Job) (start : FileTree) (bytes : List UInt8)
    (hfilled : FileName.last path ≠ []) :
    (∀ tree, job.Settled start tree →
        tree.writeFile? job.directory (job.outputName path) bytes = none)
      ∨ ∀ tree, job.Settled start tree →
          ∃ next, tree.writeFile? job.directory (job.outputName path) bytes = some next
            ∧ job.Written start tree path bytes next := by
  rcases job.leadsInto_or_blocked start with ⟨above, leads⟩ | blocked
  · by_cases hcond : (FileName.isLongName (job.outputName path)
        || FileName.isLongPath (FileName.join job.directory (job.outputName path))
        || (job.prepared start).hasDirectory (job.outputLocation above path)) = true
    · exact Or.inl fun tree hsettled =>
        (hsettled.writeFile? leads path bytes).trans (if_pos hcond)
    · refine Or.inr fun tree hsettled =>
        ⟨_, (hsettled.writeFile? leads path bytes).trans (if_neg hcond), ?_⟩
      simp only [Bool.or_eq_true, not_or, Bool.not_eq_true] at hcond
      obtain ⟨⟨hname, short⟩, hfree⟩ := hcond
      exact hsettled.written leads hfilled hname short hfree
  · refine Or.inl fun tree hsettled => ?_
    rw [hsettled.blocked blocked]
    exact blocked.writeFile? job.directory_ne_empty _ _

/-- The reading of an input is what it would be at the start. -/
def Reads (job : Job) (start : FileTree) (path : String) (tree : FileTree) : Prop :=
  job.isFor path = true → tree.lookup? path = start.lookup? path

/-- How output is delivered: the output directory is made first, and the report or the complaint comes
last. -/
theorem delivering_eq (job : Job) (path : String) (bytes : List UInt8) (report : String → Message)
    (s : Session) :
    ∃ lines, IsQuiet lines
      ∧ job.delivering path bytes report s
        = match (s.tree.makeDirectory job.directory).2.writeFile? job.directory
              (job.outputName path) bytes with
          | some next => ⟨s.messages ++ lines
              ++ [report (FileName.join job.directory (job.outputName path))], next⟩
          | none => ⟨s.messages ++ (lines ++ [.complaint (.failed path
                (.unwritable (FileName.join job.directory (job.outputName path))))]),
              (s.tree.makeDirectory job.directory).2⟩ := by
  obtain ⟨lines, hlines, hmade⟩ := s.makeDirectory_eq job.directory_ne_empty
  refine ⟨lines, hlines, ?_⟩
  rw [delivering, Session.write, hmade]
  dsimp only
  cases (s.tree.makeDirectory job.directory).2.writeFile? job.directory (job.outputName path)
    bytes with
  | some next => rfl
  | none => exact congrArg (Session.mk · _) (List.append_assoc _ _ _)

variable [RealPrinter]

/-- Dealing with an input only shows messages, in every state of the run. -/
def Silent (job : Job) (start : FileTree) (path : String) : Prop :=
  ∀ s : Session, job.Reached start s.tree → job.Reads start path s.tree →
    ∃ shown next, job.process path s = ⟨s.messages ++ shown, next⟩ ∧ IsQuiet shown
      ∧ job.Reached start next
      ∧ ∀ other content, s.tree.lookup? other = some (.file content) →
          next.lookup? other = some (.file content)

/-- Dealing with an input writes the same bytes to the same file in every state of the run, and
reports it. -/
structure Delivers (job : Job) (start : FileTree) (path : String) (report : Message)
    (bytes : List UInt8) : Prop where
  /-- The report names the input and the file. -/
  about : report.output? = some (path, FileName.join job.directory (job.outputName path))
  /-- There is an input. -/
  source : ∃ content, start.lookup? path = some (.file content)
  /-- The bytes are written and the report comes last. -/
  process : ∀ s : Session, job.Reached start s.tree → job.Reads start path s.tree →
    ∃ shown next, job.process path s = ⟨s.messages ++ shown ++ [report], next⟩ ∧ IsQuiet shown
      ∧ job.Written start s.tree path bytes next

/-- What is done about an input is the same in every state of the run. -/
theorem silent_or_delivers (job : Job) (start : FileTree) (path : String) :
    job.Silent start path ∨ ∃ report bytes, job.Delivers start path report bytes := by
  cases hfor : job.isFor path with
  | false =>
    refine Or.inl fun s hs _ => ⟨[.skipped path], s.tree, ?_, isQuiet_singleton rfl, hs,
      fun _ _ hfound => hfound⟩
    rw [process, hfor]
    rfl
  | true =>
    cases job.deals path (start.lookup? path) with
    | silent shown quiet hprocess =>
      exact Or.inl fun s hs hreads => ⟨shown, s.tree, hprocess s (hreads hfor), quiet, hs,
        fun _ _ hfound => hfound⟩
    | delivers shown quiet content bytes report source about hprocess =>
      have hfilled := FileTree.last_ne_nil_of_lookup? source
      rcases job.written_or_not start bytes hfilled with hnone | hsome
      · refine Or.inl fun s hs hreads => ?_
        obtain ⟨hsettled, hkept⟩ := hs.settled
        obtain ⟨lines, hlines, hdelivering⟩ :=
          job.delivering_eq path bytes report (s.sayAll shown)
        have hnothing : ((s.sayAll shown).tree.makeDirectory job.directory).2.writeFile?
            job.directory (job.outputName path) bytes = none := hnone _ hsettled
        rw [hnothing] at hdelivering
        let complaint : Message := .complaint (.failed path
          (.unwritable (FileName.join job.directory (job.outputName path))))
        refine ⟨shown ++ (lines ++ [complaint]), _, ?_,
          quiet.append (hlines.append (isQuiet_singleton rfl)), Or.inr hsettled, hkept⟩
        rw [hprocess s (hreads hfor), hdelivering]
        exact congrArg (Session.mk · _) (List.append_assoc _ _ _)
      · refine Or.inr ⟨report (FileName.join job.directory (job.outputName path)), bytes, about _,
          ⟨content, source⟩, fun s hs hreads => ?_⟩
        obtain ⟨hsettled, hkept⟩ := hs.settled
        obtain ⟨next, hnext, hwritten⟩ := hsome _ hsettled
        obtain ⟨lines, hlines, hdelivering⟩ :=
          job.delivering_eq path bytes report (s.sayAll shown)
        have hwrite : ((s.sayAll shown).tree.makeDirectory job.directory).2.writeFile?
            job.directory (job.outputName path) bytes = some next := hnext
        rw [hwrite] at hdelivering
        refine ⟨shown ++ lines, next, ?_, quiet.append hlines, hwritten.settled, hwritten.here,
          fun other content hfound => hwritten.elsewhere other content (hkept other content hfound)⟩
        rw [hprocess s (hreads hfor), hdelivering]
        exact congrArg (fun front => Session.mk (front ++ _) next) (List.append_assoc _ _ _)

end Job

end ByteRecord
