import LintFront.Config.Layer

/-!
# The search for configurations

* `findDeclarative`, `findModule`: the configuration file and the module of a directory.
* `findManifest`: the nearest manifest that holds a configuration.
* `FileTree.sorted`: a tree with neighbours in the order of their names.
* `FileTree.subdirectories`: the directories below one that are searched, in order.
-/

namespace LintFront

namespace Disk

/-- The first of the files with the given names in a directory. -/
def firstFile (disk : Disk) (dir : Place) (names : List String) : Option String :=
  (names.map (joinPath dir.toPath)).find? disk.isFile

/-- The configuration file of a directory. -/
def findDeclarative (disk : Disk) (dir : Place) : Option String :=
  disk.firstFile dir declarativeFiles

/-- The module of a directory. -/
def findModule (disk : Disk) (dir : Place) : Option String := disk.firstFile dir moduleFiles

end Disk

/-! ## Manifests -/

/-- The configuration in a manifest. -/
structure Manifest where
  path : String
  /-- The directory of the manifest, and the name of the manifest in it. -/
  directory : Place
  name : String
  config : Configuration
  deriving BEq, Repr, Inhabited

/-- The configuration that the text of a manifest holds as a field, if it has the field. -/
def manifestConfig (path text : String) : Except RunError (Option Configuration) :=
  match Relaxed.readValue text with
  | .error cause => .error (.parse path (.document cause))
  | .ok manifest =>
    match manifest.member? manifestField with
    | none => .ok none
    | some field =>
      match Configuration.ofValue field with
      | .ok config => .ok (some config)
      | .error cause => .error (.parse path (.field cause))

namespace Disk

/-- The first manifest of a directory, among those with the given names, that holds a
configuration. -/
def manifestIn (disk : Disk) (dir : Place) : List String → Except RunError (Option Manifest)
  | [] => .ok none
  | name :: rest =>
    let path := joinPath dir.toPath name
    if disk.isFile path then
      match disk.readText path with
      | .error cause => .error (.io path cause)
      | .ok text =>
        match manifestConfig path text with
        | .error e => .error e
        | .ok (some config) => .ok (some ⟨path, dir, name, config⟩)
        | .ok none => disk.manifestIn dir rest
    else disk.manifestIn dir rest

/-- The first manifest with a configuration in directories from below upward. The search ends at
the boundary. -/
def findManifest (disk : Disk) (boundary : Option Place) :
    List Place → Except RunError (Option Manifest)
  | [] => .ok none
  | dir :: above =>
    match disk.manifestIn dir manifestFiles with
    | .error e => .error e
    | .ok (some manifest) => .ok (some manifest)
    | .ok none => if boundary = some dir then .ok none else disk.findManifest boundary above

end Disk

/-! ## Directories below a project -/

/-- The bytes of a name. Names are in the order of their bytes. -/
def nameBytes (name : String) : List UInt8 := name.toByteArray.data.toList

namespace FileTree

/-- An entry at its place among others that are in the order of their names. -/
def insertEntry (entry : String × FileTree) : List (String × FileTree) → List (String × FileTree)
  | [] => [entry]
  | other :: rest =>
    if nameBytes other.1 < nameBytes entry.1 then other :: insertEntry entry rest
    else entry :: other :: rest

mutual

/-- A tree with the entries of each directory in the order of their names. -/
def sorted : FileTree → FileTree
  | .directory entries => .directory (sortedEntries entries)
  | .file text => .file text
  | .link target => .link target

def sortedEntries : List (String × FileTree) → List (String × FileTree)
  | [] => []
  | (name, tree) :: rest => insertEntry (name, tree.sorted) (sortedEntries rest)

end

mutual

/-- The directories strictly below a directory that are searched, by the names that lead to them:
each one before those in it, and neighbours in the order of the entries. -/
def subdirectories (here : Place) : FileTree → List Place
  | .directory entries => entryDirectories here entries
  | _ => []

def entryDirectories (here : Place) : List (String × FileTree) → List Place
  | [] => []
  | (name, tree) :: rest =>
    match tree with
    | .directory _ =>
      if isSkippedDirectory name then entryDirectories here rest
      else (here ++ [name]) :: subdirectories (here ++ [name]) tree ++ entryDirectories here rest
    | _ => entryDirectories here rest

end

end FileTree

end LintFront
