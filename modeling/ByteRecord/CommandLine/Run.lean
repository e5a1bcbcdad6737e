import ByteRecord.CommandLine.Session
import ByteRecord.Decode.Record
import ByteRecord.Encode.Basic
import ByteRecord.Json.Shortest

/-!
# Runs of the program

A run reads a schema and one input or a directory of them, writes for each a record in JSON or in
bytes, and reports what it did. `CommandLine.run` is the whole run as a function: from the arguments
and the files at the start to the exit code, the messages and the files at the end. An input that
fails is reported and does not end the run.
-/

namespace ByteRecord

/-- What a run works with throughout. -/
structure Job where
  /-- What the arguments ask for. -/
  settings : Settings
  /-- The root of the schema. -/
  node : Node
  /-- The directory below which output is written. -/
  output : String
  /-- How many microseconds each step is reported to take. -/
  elapsed : Nat

namespace Job

variable [RealPrinter]

/-- The directory that records are written to. -/
def recordDirectory (job : Job) : String := FileName.join job.output "json"

/-- The directory that bytes are written to. -/
def bytesDirectory (job : Job) : String := FileName.join job.output "bin"

/-- The text of a record as it is written. -/
def recordText (job : Job) (record : Json) : String :=
  if job.settings.pretty then record.indented else record.compact

/-- Writes the output of an input and reports it. -/
def deliver (s : Session) (directory name : String) (bytes : List UInt8)
    (message : String → Message) : Except RunError Unit × Session :=
  match s.write directory name bytes with
  | (.error cause, s) => (.error cause, s)
  | (.ok (), s) => (.ok (), s.say (message (FileName.join directory name)))

/-- Decodes an input and writes its record, if it matches. -/
def decode (job : Job) (path : String) (s : Session) : Except RunError Unit × Session :=
  match s.read path with
  | .error cause => (.error cause, s)
  | .ok bytes =>
    let label := String.ofList (FileName.last path)
    let offset := job.settings.offset
    let (result, events) := job.node.decodeRecord ⟨offset, false, label⟩ bytes
    let s := s.explainEvents job.settings events
    match result with
    | .error cause => (.error (.coding cause), s)
    | .ok decoded =>
      let s := s.explain job.settings
        (.decoded label bytes.length offset decoded.consumed decoded.record.isSome job.elapsed)
      match decoded.record with
      | none => (.ok (), s.say (.noMatch path))
      | some record =>
        deliver s job.recordDirectory (FileName.stem path ++ ".json")
          (job.recordText record).toUTF8.toList fun output =>
            .wroteRecord path output decoded.consumed

/-- Encodes a record and writes its bytes. -/
def encode (job : Job) (path : String) (s : Session) : Except RunError Unit × Session :=
  match s.readRecord path with
  | .error cause => (.error cause, s)
  | .ok record =>
    let stem := FileName.stem path
    let (result, events) := job.node.encode record 0 .big
    let s := s.explainEvents job.settings events
    match result with
    | .error cause => (.error (.coding cause), s)
    | .ok encoded =>
      let s := s.explain job.settings (.encoded stem encoded.written job.elapsed)
      deliver s job.bytesDirectory (stem ++ ".bin") encoded.bytes fun output =>
        .wroteBytes path output encoded.written

/-- Whether the run is for an input: records are encoded, anything else is decoded. -/
def isFor (job : Job) (path : String) : Bool :=
  job.settings.encode == FileName.hasExtension path ".json"

/-- Deals with one input. -/
def process (job : Job) (path : String) (s : Session) : Session :=
  if !job.isFor path then s.say (.skipped path)
  else
    match if job.settings.encode then job.encode path s else job.decode path s with
    | (.ok (), s) => s
    | (.error cause, s) => s.complain (.failed path cause)

/-- Deals with an input found at a location below the input directory. -/
def processBelow (job : Job) (s : Session) (location : Location) : Session :=
  let s := s.explain job.settings (.detail (.input location))
  job.process (location.foldl FileName.join job.settings.input) s

/-- The inputs below a directory: all files, or only records if they are to be encoded. -/
def inputsBelow (job : Job) (tree : FileTree) (directory : Location) : List Location :=
  let files := tree.filesBelow directory
  if job.settings.encode then
    files.filter fun location => FileName.hasExtension (location.getLast?.getD "") ".json"
  else files

/-- Deals with the input: a file, or all files below a directory. -/
def processAll (job : Job) (s : Session) : Session :=
  let input := job.settings.input
  match s.tree.resolve input with
  | .ok directory =>
    if s.tree.hasDirectory directory then
      let inputs := job.inputsBelow s.tree directory
      inputs.foldl job.processBelow (s.say (.found inputs.length input))
    else job.process input s
  | .error _ => job.process input s

end Job

namespace CommandLine

/-- The run that settings ask for. Output goes below `output` unless the settings name another
directory. -/
def runSettings [RealPrinter] (settings : Settings) (output : String) (elapsed : Nat) (s : Session) :
    UInt32 × Session :=
  if !s.tree.has settings.schema then (2, s.complain (.missingSchema settings.schema))
  else if !s.tree.has settings.input then (2, s.complain (.missingInput settings.input))
  else
    match s.readSchema settings.schema with
    | .error cause => (2, s.complain (.invalidSchema settings.schema cause))
    | .ok node =>
      let s := s.explain settings (.detail (.schema node.describe))
      let output := settings.output.getD output
      let job : Job := ⟨settings, node, output, elapsed⟩
      (0, job.processAll (s.makeDirectory output))

/-- What is shown about refused arguments. -/
def refusal (cause : ArgumentError) : List Message :=
  let complaint := match cause.message? with
    | some text => [.complaint (.arguments text)]
    | none => []
  complaint ++ if cause.showsUsage then [.usage] else []

/-- A whole run: the exit code, and what is shown and written. -/
def run [RealPrinter] (arguments : List String) (output : String) (elapsed : Nat) (tree : FileTree) :
    UInt32 × Session :=
  match Settings.parse arguments with
  | .ok settings => runSettings settings output elapsed ⟨[], tree⟩
  | .error cause => (cause.exitCode, ⟨refusal cause, tree⟩)

end CommandLine

/-- The printer that the program runs with. -/
instance : RealPrinter := .shortest

end ByteRecord
