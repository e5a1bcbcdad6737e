import ByteRecord.CommandLine.Settings
import ByteRecord.Error
import ByteRecord.Files.FileTree
import ByteRecord.Shown
import ByteRecord.Trace

/-!
# What a run shows

A run reports what it does in messages and complains about what goes wrong. A message is a value
that says what happened; it is only worded when it is shown.
-/

namespace ByteRecord

/-- Why a schema or an input cannot be dealt with. -/
inductive RunError where
  /-- The file cannot be opened. -/
  | unreadable (path : String)
  /-- The path names a directory, which has no size as a file. -/
  | unsized (path : String)
  /-- The file of the schema holds nothing. -/
  | emptySchema (path : String)
  /-- The file of the schema does not compile. -/
  | schema (path : String) (cause : SchemaError)
  /-- The file of a record holds nothing. -/
  | emptyRecord (path : String)
  /-- A file cannot be read as JSON, the input does not decode, or the record does not encode. -/
  | coding (cause : Error)
  /-- The output cannot be written. -/
  | unwritable (path : String)

/-- The wording of the error. -/
def RunError.text [RealPrinter] : RunError → String
  | unreadable path => s!"Failed to open file for reading: {path}"
  | unsized path => s!"Failed to get file size: {path}"
  | emptySchema path => s!"Schema file is empty: {path}"
  | schema path cause => path ++ ": " ++ cause.message
  | emptyRecord path => s!"JSON file is empty: {path}"
  | coding cause => cause.message
  | unwritable path => s!"Failed to open file for writing: {path}"

/-- What went wrong. -/
inductive Complaint where
  /-- The arguments are refused. -/
  | arguments (text : String)
  /-- There is no schema at the path. -/
  | missingSchema (path : String)
  /-- There is no input at the path. -/
  | missingInput (path : String)
  /-- The schema at the path cannot be used. -/
  | invalidSchema (path : String) (cause : RunError)
  /-- A directory cannot be made. -/
  | blockedDirectory (path : String) (cause : PathError)
  /-- An input could not be dealt with. -/
  | failed (input : String) (cause : RunError)

/-- The wording of the complaint. -/
def Complaint.text [RealPrinter] : Complaint → String
  | arguments text => text
  | missingSchema path => s!"Schema does not exist: {path}"
  | missingInput path => s!"Input does not exist: {path}"
  | invalidSchema path cause => s!"Invalid schema: {path} ({shown cause.text})"
  | blockedDirectory path cause => s!"Failed to create directory: {path} ({cause.message})"
  | failed input cause => s!"Failed: {input} ({shown cause.text})"

/-- What is shown only in a detailed report. -/
inductive Detail where
  /-- The schema is read. -/
  | schema (description : Json)
  /-- An input is next, seen from the input directory. -/
  | input (location : Location)
  /-- Something happened in decoding or encoding. -/
  | event (happened : Event)

/-- The wording of the detail. -/
def Detail.text [RealPrinter] : Detail → String
  | schema description => "Schema: " ++ description.compact
  | input location => "Input: " ++ String.intercalate "/" location
  | event happened => happened.message

/-- What a run shows. -/
inductive Message where
  /-- How the program is called. -/
  | usage
  /-- The input directory holds inputs. -/
  | found (count : Nat) (input : String)
  /-- The run is not for the input. -/
  | skipped (input : String)
  /-- The input does not match the schema. -/
  | noMatch (input : String)
  /-- The input was decoded, with or without a match. -/
  | decoded (label : String) (size offset consumed : Nat) (isMatch : Bool) (elapsed : Nat)
  /-- The input was encoded. -/
  | encoded (label : String) (written elapsed : Nat)
  /-- The record of an input is in a file. -/
  | wroteRecord (input output : String) (consumed : Nat)
  /-- The bytes of an input are in a file. -/
  | wroteBytes (input output : String) (written : Nat)
  /-- A line of the detailed report. -/
  | detail (shown : Detail)
  /-- Something went wrong. -/
  | complaint (cause : Complaint)

namespace Message

/-- The wording of the message. -/
def text [RealPrinter] : Message → String
  | usage => Settings.usage
  | found count input => s!"Found {count} files in {input}"
  | skipped input => s!"Skipped: {input}"
  | noMatch input => s!"No match: {input}"
  | decoded label size offset consumed isMatch elapsed =>
    s!"Decode {label}: bytes={size} offset={offset} consumed={consumed} matched="
      ++ (if isMatch then "yes" else "no") ++ s!" time={elapsed}us"
  | encoded label written elapsed => s!"Encode {label}: bytes={written} time={elapsed}us"
  | wroteRecord _ output consumed => s!"Wrote: {output} ({consumed} bytes decoded)"
  | wroteBytes _ output written => s!"Wrote: {output} ({written} bytes)"
  | detail shown => "[DEBUG] " ++ shown.text
  | complaint cause => "[ERROR] " ++ cause.text

/-- Whether the message is about something that went wrong. -/
def isComplaint : Message → Bool
  | complaint _ => true
  | _ => false

end Message

end ByteRecord
