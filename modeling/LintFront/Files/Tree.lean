import LintFront.Files.Path
import LintFront.Table

/-!
# Trees of files

The files that a run sees, as a value. A path is followed from directory to directory; a symbolic
link is replaced by its target, at most forty times.

* `FileTree`: files, directories and links.
* `Place`: where something is, by the names that lead there from the root, links aside.
* `FileTree.put`: a tree with something else at a place.
* `FileTree.follow`: the place that a path leads to, or why it leads nowhere.
* `Disk`: a tree and a working directory.
* `Disk.locate`, `Disk.lookUp`: the place that a path leads to, however long it is written, and the
  place of what is asked for by it.
* `Disk.isFile`, `Disk.readText`: whether a path leads to a file, and the text there.
-/

namespace LintFront

/-- Why a path leads nowhere, or a file cannot be read. -/
inductive IoFault
  | notFound
  | notDirectory
  | isDirectory
  | tooManyLinks
  | nameTooLong
  | zeroByte
  /-- The content is no text. -/
  | notText
  | other (message : String)
  deriving DecidableEq, Repr, Inhabited

def IoFault.message : IoFault → String
  | .notFound => "No such file or directory (os error 2)"
  | .notDirectory => "Not a directory (os error 20)"
  | .isDirectory => "Is a directory (os error 21)"
  | .tooManyLinks => "Too many levels of symbolic links (os error 40)"
  | .nameTooLong => "File name too long (os error 36)"
  | .zeroByte => "file name contained an unexpected NUL byte"
  | .notText => "stream did not contain valid UTF-8"
  | .other message => message

/-- Files, directories and links. Names and targets are Unicode texts, on which a lossy conversion
to text does nothing: where a path is shown as a text, every name in it stands as it is. -/
inductive FileTree
  /-- A file, with its text if its content is one. -/
  | file (text : Option String)
  /-- A directory, its entries in the order of their names. -/
  | directory (entries : List (String × FileTree))
  /-- A symbolic link. -/
  | link (target : String)
  deriving Inhabited

/-- Where something is: the names from the root to it. -/
abbrev Place := List String

namespace Place

/-- A place as a path. -/
def toPath (place : Place) : String := "/" ++ "/".intercalate place

/-- The directory that a place is in; the root is in itself. -/
def parent (place : Place) : Place := place.dropLast

/-- A place and the directories above it, the root last. -/
def ancestors (place : Place) : List Place :=
  (List.range (place.length + 1)).map fun k => place.take (place.length - k)

end Place

namespace FileTree

/-- What is at a place, links aside. -/
def at? (tree : FileTree) : Place → Option FileTree
  | [] => some tree
  | name :: rest =>
    match tree with
    | .directory entries =>
      match List.lookup name entries with
      | some inner => inner.at? rest
      | none => none
    | _ => none

/-- Whether there is a file at a place. -/
def isFileAt (tree : FileTree) (place : Place) : Bool :=
  match tree.at? place with
  | some (.file _) => true
  | _ => false

mutual

/-- The places of all files below a place. -/
def filePlaces (here : Place) : FileTree → List Place
  | .file _ => [here]
  | .directory entries => entryPlaces here entries
  | .link _ => []

def entryPlaces (here : Place) : List (String × FileTree) → List Place
  | [] => []
  | (name, tree) :: rest => filePlaces (here ++ [name]) tree ++ entryPlaces here rest

end

/-- Entries with something else under a name, in the order of their names; `none` takes it away. -/
def putEntry (entries : List (String × FileTree)) (name : String) (node : Option FileTree) :
    List (String × FileTree) :=
  let others := entries.filter (·.1 != name)
  match node with
  | none => others
  | some node => others.takeWhile (·.1 < name) ++ (name, node) :: others.dropWhile (·.1 < name)

/-- The entries of a directory; anything else has none. -/
def entries : FileTree → List (String × FileTree)
  | .directory entries => entries
  | _ => []

/-- A tree with something else at a place, and with the directories that lead there; `none` takes
away what is there. -/
def put (node : Option FileTree) : Place → FileTree → FileTree
  | [], tree => node.getD tree
  | [name], tree => .directory (putEntry tree.entries name node)
  | name :: next :: rest, tree =>
    let inner := (List.lookup name tree.entries).getD (.directory [])
    .directory (putEntry tree.entries name (some (put node (next :: rest) inner)))

/-! ## Following a path -/

/-- How far a path has been followed. -/
inductive Progress
  /-- To its end. -/
  | arrived (place : Place)
  /-- To a link: what is left to follow, and from where. -/
  | linked (start : Place) (rest : List String)
  deriving Repr

/-- How long the name of a file may be, in bytes. -/
def longestName : Nat := 255

/-- How long a path may be that a file is asked for by, in bytes. -/
def longestPath : Nat := 4095

/-- Whether a name is too long for a directory, by itself or with what leads to it. -/
def isTooLong (here : Place) (name : String) : Bool :=
  longestName < name.utf8ByteSize || longestPath < (here ++ [name]).toPath.utf8ByteSize

/-- The parts of a path followed from a place up to the first link. Every part, also an empty one,
needs a directory to start from. -/
def advance (tree : FileTree) (here : Place) : List String → Except IoFault Progress
  | [] => .ok (.arrived here)
  | part :: rest =>
    match tree.at? here with
    | some (.directory entries) =>
      if isIdle part then advance tree here rest
      else if part = ".." then advance tree here.parent rest
      else if isTooLong here part then .error .nameTooLong
      else
        match List.lookup part entries with
        | none => .error .notFound
        | some (.link target) =>
          .ok (.linked (if isAbsolute target then [] else here) (segmentsOf target ++ rest))
        | some _ => advance tree (here ++ [part]) rest
    | some _ => .error .notDirectory
    | none => .error .notFound

/-- The parts of a path followed from a place to the end, through at most `links` links. -/
def follow (tree : FileTree) (here : Place) (parts : List String) : Nat → Except IoFault Place
  | 0 =>
    match advance tree here parts with
    | .ok (.arrived place) => .ok place
    | .ok (.linked ..) => .error .tooManyLinks
    | .error fault => .error fault
  | links + 1 =>
    match advance tree here parts with
    | .ok (.arrived place) => .ok place
    | .ok (.linked start rest) => follow tree start rest links
    | .error fault => .error fault

/-- How many links a path may lead through. -/
def mostLinks : Nat := 40

end FileTree

/-- A tree of files and the working directory. -/
structure Disk where
  tree : FileTree
  cwd : Place
  deriving Inhabited

namespace Disk

/-- The place that a path leads to, followed part by part. Only the places on the way must not be
too long; how the path is written does not matter. -/
def locate (disk : Disk) (path : String) : Except IoFault Place :=
  if path = "" then .error .notFound
  else if path.toList.contains '\x00' then .error .zeroByte
  else
    disk.tree.follow (if isAbsolute path then [] else disk.cwd) (segmentsOf path)
      FileTree.mostLinks

/-- The place of what is asked for by a path as it is written. -/
def lookUp (disk : Disk) (path : String) : Except IoFault Place :=
  if FileTree.longestPath < path.utf8ByteSize && !path.toList.contains '\x00' then
    .error .nameTooLong
  else disk.locate path

/-- Whether a path leads to a file. -/
def isFile (disk : Disk) (path : String) : Bool :=
  match disk.lookUp path with
  | .ok place => disk.tree.isFileAt place
  | .error _ => false

/-- The text of the file that is at a place. -/
def textAt (disk : Disk) (place : Place) : Except IoFault String :=
  match disk.tree.at? place with
  | some (.file (some text)) => .ok text
  | some (.file none) => .error .notText
  | some (.directory _) => .error .isDirectory
  | _ => .error .notFound

/-- The text of the file that a path leads to. -/
def readText (disk : Disk) (path : String) : Except IoFault String := do
  disk.textAt (← disk.lookUp path)

/-- A path from the root. -/
def absolute (disk : Disk) (path : String) : String :=
  if isAbsolute path then path else joinPath disk.cwd.toPath path

end Disk

end LintFront
