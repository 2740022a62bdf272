import LintFront.CommandLine.Session

/-!
# The program

The outermost layer takes the command line, the environment and the files, and prints what a
session says. Other programs are not started from here, so a session learns that the engine and the
host runtime are not there.
-/

namespace LintFront

/-- The names that lead to an absolute path. -/
def placeOf (path : String) : Place := (segmentsOf path).filter (!isIdle ·)

/-- A tree with an entry of a directory, with everything below it, and with the target of a link.
What cannot be read is left out. -/
partial def loadEntry (tree : FileTree) (entry : IO.FS.DirEntry) : IO FileTree := do
  let place := placeOf entry.path.toString
  if (tree.at? place).isSome then
    return tree
  try
    match (← entry.path.symlinkMetadata).type with
    | .file =>
      let text := String.fromUTF8? (← IO.FS.readBinFile entry.path)
      return tree.put (some (.file text)) place
    | .dir =>
      let mut tree := tree.put (some (.directory [])) place
      for inner in ← entry.path.readDir do
        tree ← loadEntry tree inner
      return tree
    | .symlink =>
      let target ← IO.FS.realPath entry.path
      let tree := tree.put (some (.link target.toString)) place
      match target.parent, target.fileName with
      | some parent, some name => loadEntry tree ⟨parent, name⟩
      | _, _ => return tree
    | .other => return tree
  catch _ => return tree

/-- A tree with what is directly in the directories above a path, and the packages installed
there. -/
def loadAbove (tree : FileTree) (path : String) : IO FileTree := do
  let mut tree := tree
  for dir in (pathAncestors path).drop 1 do
    try
      for entry in ← (IO.FS.DirEntry.mk dir ".").path.readDir do
        let nested ← entry.path.isDir
        if !nested || entry.fileName == packageDirectory then
          tree ← loadEntry tree entry
    catch _ => pure ()
  return tree

/-- A tree with what is at a path and around it. -/
def loadAround (tree : FileTree) (path : String) : IO FileTree := do
  let tree ←
    match parentPath? path, fileName? path with
    | some parent, some name => loadEntry tree ⟨parent, name⟩
    | _, _ => pure tree
  loadAbove tree path

/-- The variables of the environment that a session looks at. -/
def loadEnvironment : IO (Table String) := do
  let mut table : Table String := []
  for name in ["VIOLA_CONFIG", "VIOLA_ENGINE", "VIOLA_MAIN_MODULE", "VIOLA_RUNTIME", "NO_COLOR",
      "CLICOLOR_FORCE"] do
    if let some value ← IO.getEnv name then
      table := table.put name value
  return table

/-- The files that a command line and an environment are about. -/
def loadDisk (arguments : List String) (environment : Table String) : IO Disk := do
  let cwd := (← IO.currentDir).toString
  let given :=
    match parseCommandLine arguments with
    | .ok given => given.paths.map Prod.snd
    | .error _ => []
  let named := given ++ (environment.find? "VIOLA_CONFIG").toList
  let mut tree : FileTree := .directory []
  for path in cwd :: named.map (joinPath cwd) do
    tree ← loadAround tree path
  return ⟨tree, placeOf cwd⟩

end LintFront

open LintFront

/-- Prints what a session says, and ends with its code. -/
def main (arguments : List String) : IO UInt32 := do
  let environment ← loadEnvironment
  let disk ← loadDisk arguments environment
  let missing : IoFault := .notFound
  let done := Surroundings.session {
    disk, environment
    program := (← IO.appPath).toString
    startEngine := fun _ _ => .error missing
    scriptHost := {
      directory := "/tmp", tokens := ["000000"], execute := fun _ _ _ => .error missing }
  } arguments
  IO.print done.printed.out
  IO.eprint done.printed.err
  return done.code.toUInt32
