import ByteRecord.CommandLine.Run

/-!
# The program

`main` loads the files that the arguments name, carries out the run as a function and then shows its
messages and makes the directories and files that it added. No step is timed by itself: a run
reports no time for each.
-/

namespace ByteRecord.Program

/-- The path text of a location. -/
def pathOf (location : Location) : String := location.foldl FileName.join ""

/-- Loads what is found at a location: the file with its bytes, or the directory without what is in
it. -/
def loadEntry (location : Location) (tree : FileTree) : IO FileTree := do
  let found := (← IO.currentDir) / pathOf location
  if location.isBase then return tree
  else if ← found.isDir then return tree.put location .directory
  else if ← found.pathExists then
    return tree.put location (.file (← IO.FS.readBinFile found).toList)
  else return tree

/-- Loads what is found at a location, with everything below it. -/
partial def loadBelow (location : Location) (tree : FileTree) : IO FileTree := do
  let mut tree ← loadEntry location tree
  if tree.hasDirectory location then
    for entry in ← ((← IO.currentDir) / pathOf location).readDir do
      tree ← loadBelow (location ++ [entry.fileName]) tree
  return tree

/-- Loads what is found on the way along a path text and everything below the place it names. A name
that leads nowhere does not end the way: it may be made before the names behind it are followed. -/
def load (path : String) (tree : FileTree) : IO FileTree := do
  if path.isEmpty then return tree
  let (start, names) := Location.route path
  let mut tree := tree
  let mut location := start
  for name in names do
    location :=
      if name = "." then location else if name = ".." then location.up else location ++ [name]
    tree ← loadEntry location tree
  loadBelow location tree

/-- Makes the directories and writes the files that differ from those at the start. -/
def store (before after : FileTree) : IO Unit :=
  for (location, entry) in after.entries do
    if before.find? location != some entry then
      let target := (← IO.currentDir) / pathOf location
      match entry with
      | .directory => IO.FS.createDirAll target
      | .file bytes => IO.FS.writeBinFile target ⟨bytes.toArray⟩

/-- Shows a message. -/
def display (message : Message) : IO Unit :=
  if message.isComplaint then IO.eprintln message.text else IO.println message.text

end ByteRecord.Program

open ByteRecord in
/-- Runs the program on its arguments. Without another choice output goes beside the program. -/
def main (arguments : List String) : IO UInt32 := do
  let beside := ((← IO.appPath).parent.getD "") / "output"
  let mut tree := FileTree.empty
  match Settings.parse arguments with
  | .ok settings =>
    for path in [settings.schema, settings.input, settings.output.getD beside.toString] do
      tree ← Program.load path tree
  | .error _ => pure ()
  let (code, session) := CommandLine.run arguments beside.toString 0 tree
  Program.store tree session.tree
  session.messages.forM Program.display
  return code
