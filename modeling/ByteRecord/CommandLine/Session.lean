import ByteRecord.CommandLine.Message
import ByteRecord.Json.Parser
import ByteRecord.Schema.Compile

/-!
# Sessions

A session is what a run has shown and written so far. The functions here show messages, read the
files of the session and write to them; a write first makes the directory it goes to.
-/

namespace ByteRecord

/-- What a run has shown and written so far. -/
structure Session where
  /-- The messages, in order. -/
  messages : List Message
  /-- The files as they are now. -/
  tree : FileTree

namespace Session

/-- Shows a message. -/
def say (s : Session) (message : Message) : Session :=
  { s with messages := s.messages ++ [message] }

/-- Shows a complaint. -/
def complain (s : Session) (complaint : Complaint) : Session := s.say (.complaint complaint)

/-- Shows a message if a detailed report is asked for. -/
def explain (s : Session) (settings : Settings) (message : Message) : Session :=
  if settings.debug then s.say message else s

/-- Shows events if a detailed report is asked for. -/
def explainEvents (s : Session) (settings : Settings) (events : List Event) : Session :=
  events.foldl (fun s event => s.explain settings (.detail (.event event))) s

/-- The bytes of a file. -/
def read (s : Session) (path : String) : Except RunError (List UInt8) :=
  match s.tree.lookup? path with
  | some (.file bytes) => .ok bytes
  | some .directory => .error (.unsized path)
  | none => .error (.unreadable path)

/-- The schema in a file. -/
def readSchema (s : Session) (path : String) : Except RunError Node :=
  match s.read path with
  | .error cause => .error cause
  | .ok [] => .error (.emptySchema path)
  | .ok bytes =>
    match Node.compileRead (Json.parseBytes bytes) with
    | .ok node => .ok node
    | .error (.schema cause) => .error (.schema path cause)
    | .error cause => .error (.coding cause)

/-- The record in a file. -/
def readRecord (s : Session) (path : String) : Except RunError Json :=
  match s.read path with
  | .error cause => .error cause
  | .ok [] => .error (.emptyRecord path)
  | .ok bytes =>
    match Json.parseBytes bytes with
    | .ok record => .ok record
    | .error cause => .error (.coding (.json cause))

/-- Makes a directory and reports what stands against it. -/
def makeDirectory (s : Session) (path : String) : Session :=
  if path.isEmpty then s
  else
    let (made, tree) := s.tree.makeDirectory path
    let s := { s with tree }
    match made with
    | .ok () => s
    | .error cause => s.complain (.blockedDirectory path cause)

/-- Writes a file into a directory, which is made first. -/
def write (s : Session) (directory name : String) (bytes : List UInt8) :
    Except RunError Unit × Session :=
  let s := s.makeDirectory directory
  match s.tree.writeFile? directory name bytes with
  | some tree => (.ok (), { s with tree })
  | none => (.error (.unwritable (FileName.join directory name)), s)

end Session

end ByteRecord
