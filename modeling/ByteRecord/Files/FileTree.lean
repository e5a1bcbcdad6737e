import ByteRecord.Files.FileName

/-!
# Trees of files

The files and directories that a run reads and writes, as a value. A location is the list of names
on the way from the working directory; a path text is resolved to the location that it names. The
directories above the working directory are named by two points each, and a location that does not
start from the working directory starts with a slash.
-/

namespace ByteRecord

/-- A file or a directory. -/
inductive FileEntry where
  /-- A file with its bytes. -/
  | file (bytes : List UInt8)
  /-- A directory. -/
  | directory
  deriving DecidableEq

/-- The names on the way from the working directory. -/
abbrev Location := List String

/-- Whether a location needs no entry to be a directory: the working directory, those above it and
the root of all files. -/
def Location.isBase (location : Location) : Bool :=
  location == ["/"] || location.all (· == "..")

/-- The directory above a location. -/
def Location.up (location : Location) : Location :=
  if location = ["/"] then location
  else if location.isBase then location ++ [".."]
  else location.dropLast

/-- Where a path text starts, and the names on the way from there. -/
def Location.route (path : String) : Location × List String :=
  match FileName.components path with
  | "/" :: names => (["/"], names)
  | names => ([], names)

/-- Why a path text does not lead to a file or directory, or why nothing can be made there. -/
inductive PathError where
  /-- Nothing is there. -/
  | missing
  /-- There is a file where a directory is needed. -/
  | notDirectory
  /-- There is a file already. -/
  | occupied
  /-- A name or the text is too long, or too many directories are to be made. -/
  | nameTooLong
  deriving DecidableEq

/-- The wording of the error. -/
def PathError.message : PathError → String
  | missing => "No such file or directory"
  | notDirectory => "Not a directory"
  | occupied => "File exists"
  | nameTooLong => "File name too long"

/-- What is found at which location. -/
structure FileTree where
  /-- The entries, each location at most once. -/
  entries : List (Location × FileEntry)

namespace FileTree

/-- No files and no directories. -/
def empty : FileTree := ⟨[]⟩

/-- What is found at a location. -/
def find? (tree : FileTree) (location : Location) : Option FileEntry :=
  if location.isBase then some .directory else tree.entries.lookup location

/-- Puts an entry at a location, in place of what is there. -/
def put (tree : FileTree) (location : Location) (entry : FileEntry) : FileTree :=
  if (tree.find? location).isSome then
    ⟨tree.entries.map fun found => if found.1 = location then (location, entry) else found⟩
  else ⟨tree.entries ++ [(location, entry)]⟩

/-- Whether a location is that of a directory. -/
def hasDirectory (tree : FileTree) (location : Location) : Bool :=
  tree.find? location == some .directory

/-- Follows some names from a location as far as they lead to directories: where that ends, and the
names that are left. A point stays, and two points go up. -/
def follow (tree : FileTree) (location : Location) : List String → Location × List String
  | [] => (location, [])
  | name :: rest =>
    if name = "." then tree.follow location rest
    else if name = ".." then tree.follow location.up rest
    else
      let next := location ++ [name]
      if tree.hasDirectory next then tree.follow next rest else (location, name :: rest)

/-- The location that a path text names. A text that ends in a slash names directories only. -/
def resolve (tree : FileTree) (path : String) : Except PathError Location :=
  if path.isEmpty then .error .missing
  else if FileName.isLongPath path then .error .nameTooLong
  else
    let (start, names) := Location.route path
    match tree.follow start names with
    | (location, []) => .ok location
    | (location, name :: rest) =>
      if FileName.isLongName name then .error .nameTooLong
      else if (tree.find? (location ++ [name])).isNone then .error .missing
      else if rest.isEmpty && !FileName.endsInSlash path then .ok (location ++ [name])
      else .error .notDirectory

/-- What a path text names. -/
def lookup? (tree : FileTree) (path : String) : Option FileEntry :=
  match tree.resolve path with
  | .ok location => tree.find? location
  | .error _ => none

/-- Whether a path text names something. -/
def has (tree : FileTree) (path : String) : Bool := (tree.lookup? path).isSome

/-- Makes the directories along some names that are missing. Those made before an error stay. -/
def makeAlong (tree : FileTree) (location : Location) :
    List String → Except PathError Unit × FileTree
  | [] => (.ok (), tree)
  | name :: rest =>
    if name = "." then tree.makeAlong location rest
    else if name = ".." then tree.makeAlong location.up rest
    else
      let next := location ++ [name]
      match tree.find? next with
      | some .directory => tree.makeAlong next rest
      | some (.file _) => (.error .occupied, tree)
      | none =>
        if FileName.isLongName name then (.error .nameTooLong, tree)
        else (tree.put next .directory).makeAlong next rest

/-- The most directories that are made at once. -/
def greatestDepth : Nat := 1000

/-- Makes a directory and those above it that are missing. A file that is found before anything is
missing forbids it, unless it is the last name and a slash follows: then it is in the way. -/
def makeDirectory (tree : FileTree) (path : String) : Except PathError Unit × FileTree :=
  if FileName.isLongPath path then (.error .nameTooLong, tree)
  else
    let (start, names) := Location.route path
    match tree.follow start names with
    | (_, []) => (.ok (), tree)
    | (location, name :: rest) =>
      if (tree.find? (location ++ [name])).isSome then
        let last := rest.isEmpty && FileName.endsInSlash path
        (.error (if last then .occupied else .notDirectory), tree)
      else
        let proper := (name :: rest).filter fun name => name != "." && name != ".."
        if greatestDepth < proper.length then (.error .nameTooLong, tree)
        else tree.makeAlong location (name :: rest)

/-- Writes a file of the given name into a directory. It replaces a file of that name, but not a
directory. -/
def writeFile? (tree : FileTree) (directory name : String) (bytes : List UInt8) : Option FileTree :=
  match if directory.isEmpty then .ok [] else tree.resolve directory with
  | .error _ => none
  | .ok above =>
    let location := above ++ [name]
    let tooLong := FileName.isLongName name || FileName.isLongPath (FileName.join directory name)
    if tooLong || !tree.hasDirectory above || tree.hasDirectory location then none
    else some (tree.put location (.file bytes))

/-- A location seen from one above it. What is reached by going up is not below. -/
def below? (above location : Location) : Option Location :=
  let names := location.drop above.length
  if above.isPrefixOf location && names.all fun name => name != ".." && name != "/" then
    some names
  else none

/-- The files below a location, in the order of the names on the way to them. -/
def filesBelow (tree : FileTree) (above : Location) : List Location :=
  let files := tree.entries.filterMap fun (location, entry) =>
    match entry with
    | .file _ => below? above location
    | .directory => none
  files.mergeSort fun first second => !decide (second < first)

end FileTree

end ByteRecord
