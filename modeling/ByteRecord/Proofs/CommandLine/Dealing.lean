import ByteRecord.CommandLine.Run

/-!
# Dealing with an input

What a run does about an input depends on the file that is found under its path and on nothing else:
either it only shows messages, or it shows messages and then writes certain bytes to a file whose name
comes from that of the input.
-/

namespace ByteRecord

/-- The input whose output a message reports, and the file that it is in. -/
def Message.output? : Message → Option (String × String)
  | wroteRecord input output _ | wroteBytes input output _ => some (input, output)
  | _ => none

/-- No output is reported. -/
def IsQuiet (messages : List Message) : Prop := ∀ message ∈ messages, message.output? = none

/-- The lines of a detailed report, if one is asked for. -/
def Settings.details (settings : Settings) (messages : List Message) : List Message :=
  if settings.debug then messages else []

theorem IsQuiet.append {first second : List Message} (hfirst : IsQuiet first)
    (hsecond : IsQuiet second) : IsQuiet (first ++ second) :=
  List.forall_mem_append.mpr ⟨hfirst, hsecond⟩

theorem isQuiet_singleton {message : Message} (h : message.output? = none) : IsQuiet [message] :=
  List.forall_mem_singleton.mpr h

theorem IsQuiet.details {messages : List Message} (h : IsQuiet messages) (settings : Settings) :
    IsQuiet (settings.details messages) := by
  unfold Settings.details
  split
  · exact h
  · exact List.forall_mem_nil _

namespace Session

/-- Shows messages. -/
def sayAll (s : Session) (messages : List Message) : Session :=
  { s with messages := s.messages ++ messages }

variable {s : Session} {path : String}

theorem sayAll_sayAll (s : Session) (first second : List Message) :
    (s.sayAll first).sayAll second = s.sayAll (first ++ second) := by
  rw [sayAll, sayAll, sayAll, List.append_assoc]

theorem sayAll_nil (s : Session) : s.sayAll [] = s := by
  rw [sayAll, List.append_nil]

theorem explain_eq (s : Session) (settings : Settings) (message : Message) :
    s.explain settings message = s.sayAll (settings.details [message]) := by
  unfold explain Settings.details
  split
  · rfl
  · rw [sayAll_nil]

/-- The messages about events. -/
def eventLines (settings : Settings) (events : List Event) : List Message :=
  settings.details (events.map fun event => .detail (.event event))

theorem isQuiet_eventLines (settings : Settings) (events : List Event) :
    IsQuiet (eventLines settings events) := by
  refine IsQuiet.details ?_ settings
  intro message hmessage
  obtain ⟨event, -, rfl⟩ := List.mem_map.mp hmessage
  rfl

theorem explainEvents_eq (s : Session) (settings : Settings) (events : List Event) :
    s.explainEvents settings events = s.sayAll (eventLines settings events) := by
  induction events generalizing s with
  | nil =>
    unfold explainEvents eventLines Settings.details
    split
    · exact congrArg (Session.mk · s.tree) (List.append_nil _).symm
    · exact congrArg (Session.mk · s.tree) (List.append_nil _).symm
  | cons event rest ih =>
    have hrest : s.explainEvents settings (event :: rest)
        = (s.explain settings (.detail (.event event))).explainEvents settings rest := rfl
    rw [hrest, ih, explain_eq, sayAll_sayAll]
    unfold eventLines Settings.details
    split
    · rfl
    · rfl

theorem read_of_missing (h : s.tree.lookup? path = none) :
    s.read path = .error (.unreadable path) := by
  rw [read, h]

theorem read_of_directory (h : s.tree.lookup? path = some .directory) :
    s.read path = .error (.unsized path) := by
  rw [read, h]

theorem read_of_file {content : List UInt8} (h : s.tree.lookup? path = some (.file content)) :
    s.read path = .ok content := by
  rw [read, h]

/-- The bytes of a file decide what record is read from it, or why none is. -/
theorem exists_readRecord (path : String) (content : List UInt8) :
    ∃ found, ∀ s : Session, s.tree.lookup? path = some (.file content) →
      s.readRecord path = found :=
  ⟨_, fun s hs => by rw [readRecord, read_of_file hs]⟩

end Session

namespace Job

variable {job : Job} {path : String} {found? : Option FileEntry}

/-- The directory that output is written to. -/
def directory (job : Job) : String :=
  if job.settings.encode then job.bytesDirectory else job.recordDirectory

/-- The name of the file that the output of an input is written to. -/
def outputName (job : Job) (path : String) : String :=
  FileName.stem path ++ if job.settings.encode then ".bin" else ".json"

/-- Writes the output of an input and reports it, or complains. -/
def delivering (job : Job) (path : String) (bytes : List UInt8) (report : String → Message)
    (s : Session) : Session :=
  match s.write job.directory (job.outputName path) bytes with
  | (.ok (), s) => s.say (report (FileName.join job.directory (job.outputName path)))
  | (.error cause, s) => s.complain (.failed path cause)

/-- An outcome is kept, and a failure complained about. -/
def settled (path : String) : Except RunError Unit × Session → Session
  | (.ok (), s) => s
  | (.error cause, s) => s.complain (.failed path cause)

theorem settled_deliver (job : Job) (path : String) (bytes : List UInt8)
    (report : String → Message) (s : Session) :
    settled path (deliver s job.directory (job.outputName path) bytes report)
      = job.delivering path bytes report s := by
  rw [deliver, delivering]
  cases s.write job.directory (job.outputName path) bytes with
  | mk result later =>
    cases result with
    | error cause => rfl
    | ok => rfl

/-- What the record in a file is encoded to is delivered in the same way in every session. -/
theorem encode_of_file (hencode : job.settings.encode = true) (content : List UInt8) :
    ∃ shown, IsQuiet shown
      ∧ ((∃ cause, ∀ s : Session, s.tree.lookup? path = some (.file content) →
            job.encode path s = (.error cause, s.sayAll shown))
          ∨ ∃ encoded : Encoded, ∀ s : Session, s.tree.lookup? path = some (.file content) →
              job.encode path s = deliver (s.sayAll shown) job.directory (job.outputName path)
                encoded.bytes fun output => .wroteBytes path output encoded.written) := by
  have hdirectory : job.bytesDirectory = job.directory := by
    rw [directory, hencode]
    rfl
  have hname : FileName.stem path ++ ".bin" = job.outputName path := by
    rw [outputName, hencode]
    rfl
  obtain ⟨found, hread⟩ := Session.exists_readRecord path content
  cases found with
  | error cause =>
    refine ⟨[], List.forall_mem_nil _, Or.inl ⟨cause, fun s hs => ?_⟩⟩
    rw [encode, hread s hs, Session.sayAll_nil]
  | ok record =>
    cases hencoded : job.node.encode record 0 .big with
    | mk result events =>
      have hlines := Session.isQuiet_eventLines job.settings events
      cases result with
      | error cause =>
        refine ⟨_, hlines, Or.inl ⟨.coding cause, fun s hs => ?_⟩⟩
        rw [encode, hread s hs]
        dsimp only
        rw [hencoded, Session.explainEvents_eq]
      | ok encoded =>
        let size : Message := .encoded (FileName.stem path) encoded.written job.elapsed
        refine ⟨Session.eventLines job.settings events ++ job.settings.details [size],
          hlines.append (IsQuiet.details (isQuiet_singleton rfl) _),
          Or.inr ⟨encoded, fun s hs => ?_⟩⟩
        rw [encode, hread s hs, ← Session.sayAll_sayAll, hdirectory]
        dsimp only
        rw [hencoded, hname, Session.explainEvents_eq]
        dsimp only
        rw [Session.explain_eq]

variable [RealPrinter]

/-- What is done about an input under whose path something is found, or nothing. -/
inductive Deals (job : Job) (path : String) (found? : Option FileEntry) : Prop
  /-- Messages are shown. -/
  | silent (shown : List Message) (quiet : IsQuiet shown)
      (process : ∀ s : Session, s.tree.lookup? path = found? →
        job.process path s = s.sayAll shown)
  /-- Messages are shown and output is written. -/
  | delivers (shown : List Message) (quiet : IsQuiet shown) (content bytes : List UInt8)
      (report : String → Message) (source : found? = some (.file content))
      (about : ∀ file, (report file).output? = some (path, file))
      (process : ∀ s : Session, s.tree.lookup? path = found? →
        job.process path s = job.delivering path bytes report (s.sayAll shown))

theorem process_of_encode (hfor : job.isFor path = true) (hencode : job.settings.encode = true)
    (s : Session) : job.process path s = settled path (job.encode path s) := by
  rw [process, hfor, hencode]
  rfl

theorem process_of_decode (hfor : job.isFor path = true) (hencode : job.settings.encode = false)
    (s : Session) : job.process path s = settled path (job.decode path s) := by
  rw [process, hfor, hencode]
  rfl

/-- What fails in every session is complained about. -/
theorem deals_of_failure {shown : List Message} (quiet : IsQuiet shown) (cause : RunError)
    (fails : ∀ s : Session, s.tree.lookup? path = found? →
      job.process path s = settled path (.error cause, s.sayAll shown)) : job.Deals path found? := by
  refine .silent (shown ++ [.complaint (.failed path cause)])
    (quiet.append (isQuiet_singleton rfl)) fun s hs => ?_
  rw [fails s hs, ← Session.sayAll_sayAll]
  rfl

/-- An input that cannot be read is complained about. -/
theorem deals_of_unreadable (hfor : job.isFor path = true) (cause : RunError)
    (hread : ∀ s : Session, s.tree.lookup? path = found? → s.read path = .error cause) :
    job.Deals path found? := by
  refine deals_of_failure (List.forall_mem_nil _) cause fun s hs => ?_
  rw [Session.sayAll_nil]
  cases hencode : job.settings.encode with
  | true => rw [process_of_encode hfor hencode, encode, Session.readRecord, hread s hs]
  | false => rw [process_of_decode hfor hencode, decode, hread s hs]

/-- Writes the record that was decoded, or says that there is none. -/
def concluding (job : Job) (path : String) (decoded : Decoded) (s : Session) :
    Except RunError Unit × Session :=
  match decoded.record with
  | none => (.ok (), s.say (.noMatch path))
  | some record =>
    deliver s job.directory (job.outputName path) (job.recordText record).toUTF8.toList
      fun output => .wroteRecord path output decoded.consumed

/-- What a file is decoded to is concluded in the same way in every session. -/
theorem decode_of_file (hencode : job.settings.encode = false) (content : List UInt8) :
    ∃ shown, IsQuiet shown
      ∧ ((∃ cause, ∀ s : Session, s.tree.lookup? path = some (.file content) →
            job.decode path s = (.error cause, s.sayAll shown))
          ∨ ∃ decoded, ∀ s : Session, s.tree.lookup? path = some (.file content) →
              job.decode path s = job.concluding path decoded (s.sayAll shown)) := by
  have hdirectory : job.recordDirectory = job.directory := by
    rw [directory, hencode]
    rfl
  have hname : FileName.stem path ++ ".json" = job.outputName path := by
    rw [outputName, hencode]
    rfl
  let label := String.ofList (FileName.last path)
  let offset := job.settings.offset
  cases hdecode : job.node.decodeRecord ⟨offset, false, label⟩ content with
  | mk result events =>
    have hlines := Session.isQuiet_eventLines job.settings events
    cases result with
    | error cause =>
      refine ⟨_, hlines, Or.inl ⟨.coding cause, fun s hs => ?_⟩⟩
      rw [decode, Session.read_of_file hs]
      dsimp only
      rw [hdecode, Session.explainEvents_eq]
    | ok decoded =>
      let size : Message :=
        .decoded label content.length offset decoded.consumed decoded.record.isSome job.elapsed
      refine ⟨Session.eventLines job.settings events ++ job.settings.details [size],
        hlines.append (IsQuiet.details (isQuiet_singleton rfl) _), Or.inr ⟨decoded, fun s hs => ?_⟩⟩
      rw [decode, Session.read_of_file hs, ← Session.sayAll_sayAll, hdirectory, hname]
      dsimp only
      rw [hdecode, Session.explainEvents_eq]
      dsimp only
      rw [Session.explain_eq]
      rfl

/-- What is decoded is written, unless it is no record. -/
theorem deals_of_decode (hfor : job.isFor path = true) (hencode : job.settings.encode = false)
    (content : List UInt8) : job.Deals path (some (.file content)) := by
  have hprocess := process_of_decode hfor hencode
  obtain ⟨shown, quiet, ⟨cause, hfails⟩ | ⟨decoded, hdecoded⟩⟩ := decode_of_file hencode content
  · exact deals_of_failure quiet cause fun s hs => (hprocess s).trans (congrArg _ (hfails s hs))
  · cases hrecord : decoded.record with
    | none =>
      refine .silent (shown ++ [.noMatch path]) (quiet.append (isQuiet_singleton rfl))
        fun s hs => ?_
      rw [hprocess, hdecoded s hs, concluding, hrecord]
      exact Session.sayAll_sayAll _ _ _
    | some record =>
      refine .delivers shown quiet content (job.recordText record).toUTF8.toList
        (fun output => .wroteRecord path output decoded.consumed) rfl (fun _ => rfl)
        fun s hs => ?_
      rw [hprocess, hdecoded s hs, concluding, hrecord]
      exact job.settled_deliver path _ _ _

/-- What is encoded is written. -/
theorem deals_of_encode (hfor : job.isFor path = true) (hencode : job.settings.encode = true)
    (content : List UInt8) : job.Deals path (some (.file content)) := by
  have hprocess := process_of_encode hfor hencode
  obtain ⟨shown, quiet, ⟨cause, hfails⟩ | ⟨encoded, hencoded⟩⟩ := encode_of_file hencode content
  · exact deals_of_failure quiet cause fun s hs => (hprocess s).trans (congrArg _ (hfails s hs))
  · refine .delivers shown quiet content encoded.bytes
      (fun output => .wroteBytes path output encoded.written) rfl (fun _ => rfl) fun s hs => ?_
    rw [hprocess, hencoded s hs]
    exact job.settled_deliver path _ _ _

/-- What is found under the path of an input decides what is done about it. -/
theorem deals (job : Job) (path : String) (found? : Option FileEntry) : job.Deals path found? := by
  cases hfor : job.isFor path with
  | false =>
    refine .silent [.skipped path] (isQuiet_singleton rfl) fun s _ => ?_
    rw [process, hfor]
    rfl
  | true =>
    cases found? with
    | none => exact deals_of_unreadable hfor _ fun s hs => Session.read_of_missing hs
    | some entry =>
      cases entry with
      | directory => exact deals_of_unreadable hfor _ fun s hs => Session.read_of_directory hs
      | file content =>
        cases hencode : job.settings.encode with
        | true => exact deals_of_encode hfor hencode content
        | false => exact deals_of_decode hfor hencode content

end Job

end ByteRecord
