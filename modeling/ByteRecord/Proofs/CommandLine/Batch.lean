import ByteRecord.Proofs.CommandLine.Delivery
import ByteRecord.Proofs.Files.Listing

/-!
# Batches

A run over a directory deals with its inputs one after the other, and what it reports about each of
them is what a run on that input alone would report. Outputs go to files that are named after the last
name of their input only, so inputs of one stem have one output file: it holds the output of the one
that was reported last.
-/

namespace ByteRecord

variable {messages shown : List Message} {report : Message} {path file there : String}

/-- Whether a message reports an output in the given file. -/
def Message.reports (message : Message) (file : String) : Bool :=
  message.output?.any (·.2 == file)

theorem Message.reports_iff {message : Message} :
    message.reports file = true ↔ ∃ path, message.output? = some (path, file) := by
  rw [reports, Option.any_eq_true]
  constructor
  · rintro ⟨⟨path, there⟩, houtput, hfile⟩
    exact ⟨path, beq_iff_eq.mp hfile ▸ houtput⟩
  · rintro ⟨path, houtput⟩
    exact ⟨_, houtput, beq_self_eq_true file⟩

/-- The last message that reports an output in the given file. -/
def lastReport? (file : String) (messages : List Message) : Option Message :=
  (messages.filter (·.reports file)).getLast?

theorem lastReport?_of_not_reports
    (unreported : ∀ message ∈ shown, ¬ message.reports file = true) :
    lastReport? file (messages ++ shown) = lastReport? file messages := by
  rw [lastReport?, List.filter_append, List.filter_eq_nil_iff.mpr unreported, List.append_nil,
    lastReport?]

theorem lastReport?_quiet (quiet : IsQuiet shown) :
    lastReport? file (messages ++ shown) = lastReport? file messages := by
  refine lastReport?_of_not_reports fun message hmessage hreports => ?_
  obtain ⟨path, houtput⟩ := Message.reports_iff.mp hreports
  rw [quiet message hmessage] at houtput
  cases houtput

theorem lastReport?_concat (h : report.output? = some (path, there)) :
    lastReport? file (messages ++ [report])
      = if there = file then some report else lastReport? file messages := by
  split
  · rename_i hsame
    have hreports : report.reports file = true := Message.reports_iff.mpr ⟨path, hsame ▸ h⟩
    have hkept : [report].filter (·.reports file) = [report] :=
      List.filter_eq_self.mpr (List.forall_mem_singleton.mpr hreports)
    rw [lastReport?, List.filter_append, hkept, List.getLast?_concat]
  · rename_i hother
    refine lastReport?_of_not_reports fun message hmessage hreports => hother ?_
    obtain ⟨other, houtput⟩ := Message.reports_iff.mp hreports
    rw [List.mem_singleton.mp hmessage, h] at houtput
    injection houtput with houtput
    exact congrArg Prod.snd houtput

namespace Job

variable [RealPrinter] {job : Job} {start : FileTree} {done : List String} {s : Session}
  {bytes : List UInt8}

/-- A report is about the input that delivers it. -/
theorem Delivers.eq_of_output? {other : String} (delivers : job.Delivers start other report bytes)
    (hreport : report.output? = some (path, file)) : other = path := by
  have habout := delivers.about.symm.trans hreport
  injection habout with habout
  exact congrArg Prod.fst habout

/-- Some inputs have been dealt with. -/
structure Dealt (job : Job) (start : FileTree) (done : List String) (s : Session) : Prop where
  /-- The tree is one of the run. -/
  reached : job.Reached start s.tree
  /-- What is reported is what they deliver. -/
  reports : ∀ report, report.output? ≠ none →
    (report ∈ s.messages ↔ ∃ path ∈ done, ∃ bytes, job.Delivers start path report bytes)
  /-- A file holds what was reported last about it. -/
  outputs : ∀ file report, lastReport? file s.messages = some report →
    ∃ path bytes, job.Delivers start path report bytes
      ∧ file = FileName.join job.directory (job.outputName path)
      ∧ s.tree.lookup? file = some (.file bytes)

theorem dealt_nil (quiet : IsQuiet s.messages) (hstart : s.tree = start) :
    job.Dealt start [] s := by
  refine ⟨Or.inl hstart, fun report hreport => iff_of_false (fun hmem => ?_) ?_,
    fun file report hlast => ?_⟩
  · exact hreport (quiet report hmem)
  · rintro ⟨path, hpath, -⟩
    cases hpath
  · rw [← List.nil_append s.messages, lastReport?_quiet quiet] at hlast
    cases hlast

theorem Dealt.sayAll (h : job.Dealt start done s) (quiet : IsQuiet shown) :
    job.Dealt start done (s.sayAll shown) := by
  refine ⟨h.reached, fun report hreport => ?_, fun file report hlast => ?_⟩
  · rw [← h.reports report hreport, Session.sayAll, List.mem_append]
    exact or_iff_left fun hmem => hreport (quiet report hmem)
  · rw [Session.sayAll, lastReport?_quiet quiet] at hlast
    exact h.outputs file report hlast

/-- Inputs that deliver nothing may be left out. -/
theorem Dealt.congr {others : List String} (h : job.Dealt start done s)
    (same : ∀ path report bytes, job.Delivers start path report bytes →
      (path ∈ done ↔ path ∈ others)) : job.Dealt start others s := by
  refine ⟨h.reached, fun report hreport => (h.reports report hreport).trans ?_, h.outputs⟩
  constructor
  · rintro ⟨path, hpath, bytes, hdelivers⟩
    exact ⟨path, (same path report bytes hdelivers).mp hpath, bytes, hdelivers⟩
  · rintro ⟨path, hpath, bytes, hdelivers⟩
    exact ⟨path, (same path report bytes hdelivers).mpr hpath, bytes, hdelivers⟩

/-- An input that is silent delivers nothing. -/
theorem Silent.not_delivers (silent : job.Silent start path) (hs : job.Reached start s.tree)
    (hreads : job.Reads start path s.tree) : ¬ job.Delivers start path report bytes := by
  intro hdelivers
  obtain ⟨shown, next, hprocess, quiet, -⟩ := silent s hs hreads
  obtain ⟨front, behind, hreports, -⟩ := hdelivers.process s hs hreads
  rw [hprocess, Session.mk.injEq, List.append_assoc, List.append_cancel_left_eq] at hreports
  have hnone := quiet report (hreports.1 ▸ List.mem_append_right front (List.mem_singleton_self _))
  rw [hdelivers.about] at hnone
  cases hnone

/-- Only inputs that the run is for deliver anything. -/
theorem Delivers.isFor (delivers : job.Delivers start path report bytes) :
    job.isFor path = true := by
  by_contra hfor
  rw [Bool.not_eq_true] at hfor
  obtain ⟨shown, next, hprocess, -⟩ := delivers.process ⟨[], start⟩ (Or.inl rfl) fun _ => rfl
  have hskipped : job.process path ⟨[], start⟩ = ⟨[.skipped path], start⟩ := by
    rw [Job.process, hfor]
    rfl
  rw [hskipped, Session.mk.injEq] at hprocess
  have hlast := congrArg List.getLast? hprocess.1
  rw [List.getLast?_concat] at hlast
  injection hlast with hlast
  have habout := delivers.about
  rw [← hlast] at habout
  cases habout

/-- An input delivers one output at most. -/
theorem Delivers.unique {other : Message} {others : List UInt8}
    (first : job.Delivers start path report bytes) (second : job.Delivers start path other others)
    (hs : job.Reached start s.tree) (hreads : job.Reads start path s.tree) : other = report := by
  obtain ⟨front, next, hfirst, -⟩ := first.process s hs hreads
  obtain ⟨before, behind, hsecond, -⟩ := second.process s hs hreads
  rw [hfirst, Session.mk.injEq] at hsecond
  exact (List.singleton_inj.mp (List.append_inj' hsecond.1 rfl).2).symm

/-- Dealing with one more input. -/
theorem Dealt.process (h : job.Dealt start done s) (hreads : job.Reads start path s.tree) :
    job.Dealt start (done ++ [path]) (job.process path s) := by
  rcases job.silent_or_delivers start path with silent | ⟨report, bytes, delivers⟩
  · obtain ⟨shown, next, hprocess, quiet, hreached, hkept⟩ := silent s h.reached hreads
    have hsaid : job.Dealt start done (s.sayAll shown) := h.sayAll quiet
    have hmore : job.Dealt start (done ++ [path]) (s.sayAll shown) := by
      refine hsaid.congr fun other report bytes hother => ?_
      rw [List.mem_append, List.mem_singleton]
      refine (or_iff_left fun hsame => ?_).symm
      rw [hsame] at hother
      exact silent.not_delivers h.reached hreads hother
    rw [hprocess]
    refine ⟨hreached, hmore.reports, fun file report hlast => ?_⟩
    obtain ⟨other, bytes, hdelivers, hfile, hfound⟩ := hmore.outputs file report hlast
    exact ⟨other, bytes, hdelivers, hfile, hkept file bytes hfound⟩
  · obtain ⟨shown, next, hprocess, quiet, written⟩ := delivers.process s h.reached hreads
    have hsaid : job.Dealt start done (s.sayAll shown) := h.sayAll quiet
    rw [hprocess]
    refine ⟨Or.inr written.settled, fun other hother => ?_, fun file other hlast => ?_⟩
    · rw [List.mem_append, List.mem_singleton]
      refine (or_congr_left (hsaid.reports other hother)).trans ?_
      constructor
      · rintro (⟨before, hbefore, found⟩ | rfl)
        · exact ⟨before, List.mem_append_left _ hbefore, found⟩
        · exact ⟨path, List.mem_append_right _ (List.mem_singleton_self _), bytes, delivers⟩
      · rintro ⟨before, hbefore, content, found⟩
        rcases List.mem_append.mp hbefore with hold | hnew
        · exact Or.inl ⟨before, hold, content, found⟩
        · rw [List.mem_singleton] at hnew
          subst hnew
          exact Or.inr (delivers.unique found h.reached hreads)
    · rw [lastReport?_concat delivers.about] at hlast
      split at hlast
      · rename_i hfile
        injection hlast with hlast
        subst hlast hfile
        exact ⟨path, bytes, delivers, rfl, written.here⟩
      · rename_i hne
        obtain ⟨before, content, hdelivers, hfile, hfound⟩ := hsaid.outputs file other hlast
        refine ⟨before, content, hdelivers, hfile, written.elsewhere file content hfound ?_⟩
        rw [hfile, FileName.last_join job.directory_ne_empty (job.whole_outputName before)]
        intro hsame
        refine hne ?_
        rw [hfile, String.toList_inj.mp hsame]

/-- An input that has been dealt with is reported as it delivers. -/
theorem Dealt.mem_iff (h : job.Dealt start done s) (hdone : path ∈ done)
    (hreport : report.output? = some (path, file)) :
    report ∈ s.messages ↔ ∃ bytes, job.Delivers start path report bytes := by
  refine (h.reports report (hreport ▸ Option.some_ne_none _)).trans ?_
  constructor
  · rintro ⟨other, -, bytes, delivers⟩
    obtain rfl := delivers.eq_of_output? hreport
    exact ⟨bytes, delivers⟩
  · rintro ⟨bytes, delivers⟩
    exact ⟨path, hdone, bytes, delivers⟩

/-- What a run does that has one input only: if the input cannot be found nothing is reported. -/
def Alone (job : Job) (start : FileTree) (path : String) (last : Session) : Prop :=
  (start.lookup? path = none ∧ IsQuiet last.messages)
    ∨ ∃ s : Session, IsQuiet s.messages ∧ s.tree = start ∧ last = job.process path s

theorem Alone.mem_iff {last : Session} (h : job.Alone start path last)
    (hreport : report.output? = some (path, file)) :
    report ∈ last.messages ↔ ∃ bytes, job.Delivers start path report bytes := by
  rcases h with ⟨hmissing, quiet⟩ | ⟨s, quiet, hstart, rfl⟩
  · refine iff_of_false (fun hmem => ?_) ?_
    · rw [quiet report hmem] at hreport
      cases hreport
    · rintro ⟨bytes, delivers⟩
      obtain ⟨content, hfound⟩ := delivers.source
      rw [hmissing] at hfound
      cases hfound
  · have hnone : job.Dealt start [] s := dealt_nil quiet hstart
    have hdealt : job.Dealt start ([] ++ [path]) (job.process path s) :=
      hnone.process fun _ => congrArg (FileTree.lookup? · path) hstart
    exact hdealt.mem_iff (List.mem_singleton_self path) hreport

theorem Alone.lookup? {last : Session} (h : job.Alone start path last)
    (delivers : job.Delivers start path report bytes) :
    last.tree.lookup? (FileName.join job.directory (job.outputName path)) = some (.file bytes) := by
  rcases h with ⟨hmissing, -⟩ | ⟨s, -, hstart, rfl⟩
  · obtain ⟨content, hfound⟩ := delivers.source
    rw [hmissing] at hfound
    cases hfound
  · obtain ⟨shown, next, hprocess, -, written⟩ := delivers.process s (Or.inl hstart)
      fun _ => congrArg (FileTree.lookup? · path) hstart
    rw [hprocess]
    exact written.here

/-- Dealing with the inputs of a listing. -/
theorem Dealt.foldl (h : job.Dealt start done s) {listing : List Location}
    (reads : ∀ location ∈ listing, ∀ tree, job.Reached start tree →
      job.Reads start (location.foldl FileName.join job.settings.input) tree) :
    job.Dealt start (done ++ listing.map (·.foldl FileName.join job.settings.input))
      (listing.foldl job.processBelow s) := by
  induction listing generalizing done s with
  | nil =>
    rw [List.map_nil, List.append_nil]
    exact h
  | cons location rest ih =>
    rw [List.forall_mem_cons] at reads
    rw [List.map_cons, List.foldl_cons, ← List.singleton_append, ← List.append_assoc]
    refine ih ?_ reads.2
    have hsaid : job.Dealt start done (s.explain job.settings (.detail (.input location))) := by
      rw [Session.explain_eq]
      exact h.sayAll (IsQuiet.details (isQuiet_singleton rfl) _)
    exact hsaid.process (reads.1 _ hsaid.reached)

end Job

end ByteRecord
