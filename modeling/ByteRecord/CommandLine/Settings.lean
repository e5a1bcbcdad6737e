import ByteRecord.Digits
import ByteRecord.WordRange

/-!
# Command-line arguments

The first argument names a schema, the second a file or directory; options follow. `Settings.parse`
reads the arguments in order and stops at the first that is wrong.
-/

namespace ByteRecord

/-- What the arguments ask for. -/
structure Settings where
  /-- The path of the schema. -/
  schema : String
  /-- The path of the input. -/
  input : String
  /-- Where decoding starts in every input. -/
  offset : Nat
  /-- Whether records are encoded instead of decoded. -/
  encode : Bool
  /-- Whether records are written with one item a line. -/
  pretty : Bool
  /-- Whether the run is reported in detail. -/
  debug : Bool
  /-- The directory below which output is written, if one is given. -/
  output : Option String
  deriving DecidableEq

/-- Why arguments are refused. -/
inductive ArgumentError where
  /-- There are fewer than two arguments. -/
  | tooFew
  /-- One of the first two arguments is an option. -/
  | misplacedOption
  /-- The offset is missing. -/
  | missingOffset
  /-- The offset is no number of 64 bits. -/
  | invalidOffset (value : String)
  /-- The output directory is missing. -/
  | missingOutput
  /-- The option is not known. -/
  | unknownOption (option : String)
  deriving DecidableEq

namespace ArgumentError

/-- The wording of the error, if there is one. -/
def message? : ArgumentError → Option String
  | tooFew => none
  | misplacedOption => some "First two arguments must be a schema file and a file or folder."
  | missingOffset => some "Missing value for --offset"
  | invalidOffset value => some s!"Invalid value for --offset: {value}"
  | missingOutput => some "Missing value for --out"
  | unknownOption option => some s!"Unknown option: {option}"

/-- Whether the usage is shown with the error. -/
def showsUsage : ArgumentError → Bool
  | tooFew | misplacedOption => true
  | _ => false

/-- The exit code of a run that ends with the error. -/
def exitCode : ArgumentError → UInt32
  | tooFew => 1
  | _ => 2

end ArgumentError

namespace Settings

/-- How the program is called. It ends in an empty line. -/
def usage : String := String.intercalate "\n" [
  "Usage:",
  "    binstruct <schema.json> <file-or-dir> [--offset N] [--encode] [--pretty] [--out <dir>] [--debug]",
  "",
  "Options:",
  "    First argument must be a schema .json, second a file or directory",
  "    --offset N    starts decoding N bytes into every input",
  "    --encode      encodes .json records to .bin instead of decoding",
  "    --pretty      indents the JSON output",
  "    --out <dir>   output root (default: output/ next to the executable)",
  "    --debug       enables extra logging",
  ""]

/-- Reads an offset: decimal digits and nothing else. -/
def offset? (value : String) : Option Nat :=
  if allDigits value.toList then boundedNat? greatestWord value.toList else none

/-- Reads options on top of the settings so far. An option that repeats takes its last value. -/
def readOptions (settings : Settings) : List String → Except ArgumentError Settings
  | [] => .ok settings
  | "--encode" :: rest => readOptions { settings with encode := true } rest
  | "--pretty" :: rest => readOptions { settings with pretty := true } rest
  | "--debug" :: rest => readOptions { settings with debug := true } rest
  | "--offset" :: rest =>
    match rest with
    | [] => .error .missingOffset
    | value :: rest =>
      match offset? value with
      | none => .error (.invalidOffset value)
      | some offset => readOptions { settings with offset } rest
  | "--out" :: rest =>
    match rest with
    | [] => .error .missingOutput
    | directory :: rest => readOptions { settings with output := some directory } rest
  | option :: _ => .error (.unknownOption option)

/-- Whether an argument looks like an option. -/
def isOption (argument : String) : Bool := argument.toList.head? == some '-'

/-- Reads the arguments. -/
def parse : List String → Except ArgumentError Settings
  | schema :: input :: options =>
    if isOption schema || isOption input then .error .misplacedOption
    else readOptions ⟨schema, input, 0, false, false, false, none⟩ options
  | _ => .error .tooFew

end Settings

end ByteRecord
