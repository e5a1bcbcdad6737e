/-!
# Path texts

A path text names a file by the directories on the way to it, with slashes between them. The
functions here work on the text alone: its parts, the last of them with its stem and extension, the
joining of two texts, and how long names and texts may be. Whether the file exists is asked of a
tree.
-/

namespace ByteRecord.FileName

/-- The parts of a text between slashes, empty ones included. -/
def pieces (path : String) : List (List Char) :=
  go [] path.toList
where
  /-- Goes on behind the characters `read` of a part, the newest first. -/
  go (read : List Char) : List Char → List (List Char)
    | [] => [read.reverse]
    | c :: rest => if c = '/' then read.reverse :: go [] rest else go (c :: read) rest

/-- Whether the text starts at the root of all files. -/
def isAbsolute (path : String) : Bool := path.toList.head? == some '/'

/-- Whether the text ends in a slash, so that it can only name a directory. -/
def endsInSlash (path : String) : Bool := path.toList.getLast? == some '/'

/-- The names on the way, from the root of all files if the text starts there. -/
def components (path : String) : List String :=
  let names := ((pieces path).filter fun piece => !piece.isEmpty).map String.ofList
  if isAbsolute path then "/" :: names else names

/-- The most bytes that a name may have. -/
def greatestName : Nat := 255

/-- The most bytes that a path text may have. -/
def greatestPath : Nat := 4095

/-- Whether no file can have the name. -/
def isLongName (name : String) : Bool := decide (greatestName < name.utf8ByteSize)

/-- Whether the text is too long to name a file. -/
def isLongPath (path : String) : Bool := decide (greatestPath < path.utf8ByteSize)

/-- What stands behind the last slash. -/
def last (path : String) : List Char := (pieces path).getLast?.getD []

/-- Where the extension of a name starts: at its last point, unless that is its first character.
The names of the directory itself and of the one above it have none. -/
def extensionStart (name : List Char) : Nat :=
  let behind := (name.reverse.takeWhile (· != '.')).length
  let start := name.length - behind - 1
  if name.length ≤ behind || start = 0 || name = ['.', '.'] then name.length else start

/-- The extension of the last name, with its point. -/
def extension (path : String) : List Char :=
  let name := last path
  name.drop (extensionStart name)

/-- The last name without its extension. -/
def stem (path : String) : String :=
  let name := last path
  String.ofList (name.take (extensionStart name))

/-- Whether the last name has the given extension, in letters of either case. -/
def hasExtension (path wanted : String) : Bool :=
  (extension path).map Char.toLower == wanted.toList.map Char.toLower

/-- One text below another. -/
def join (directory name : String) : String :=
  if directory.isEmpty || endsInSlash directory then directory ++ name
  else directory ++ "/" ++ name

end ByteRecord.FileName
