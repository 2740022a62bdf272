import LintFront.Text.Segments

/-!
# Paths as texts

A path is kept as it was written, because messages show it so. What it means is read off its parts.

* `joinPath`: a path inside another one, or the second one alone if it is absolute.
* `pathParts`: the parts that count when two paths are compared.
* `pathAncestors`: a path and the directories above it, as far as it names them.
* `fileName?`, `extension?`: the last part, and what follows its last dot.
-/

namespace LintFront

/-- Whether a path starts at the root. -/
def isAbsolute (path : String) : Bool := path.toList.head? = some '/'

/-- A path inside another one; an absolute path stands alone. -/
def joinPath (base path : String) : String :=
  if isAbsolute path then path
  else if base.toList.getLast?.getD '/' = '/' then base ++ path
  else base ++ "/" ++ path

/-- Whether a part changes nothing. -/
def isIdle (part : String) : Bool := part = "" || part = "."

/-- The parts of a path that count when paths are compared: a slash for the root, a dot for a
relative path that starts with one, and the names. -/
def pathParts (path : String) : List String :=
  let parts := segmentsOf path
  let names := parts.filter fun part => !isIdle part
  if isAbsolute path then "/" :: names
  else if parts.head? = some "." then "." :: names
  else names

/-- Parts up to the last one that counts, and at least one. -/
def trimParts (parts : List String) : List String :=
  match (parts.reverse.dropWhile isIdle).reverse with
  | [] => parts.take 1
  | trimmed => trimmed

/-- The directory that a path names before its last part. -/
def parentPath? (path : String) : Option String :=
  match trimParts (segmentsOf path) with
  | [] => none
  | [part] => if part = "" then none else some ""
  | parts =>
    match trimParts parts.dropLast with
    | [""] => some "/"
    | above => some ("/".intercalate above)

/-- A path and at most so many directories above it. -/
def ancestorsWithin : Nat → String → List String
  | 0, path => [path]
  | count + 1, path =>
    match parentPath? path with
    | some above => path :: ancestorsWithin count above
    | none => [path]

/-- A path and the directories above it, as far as it names them. -/
def pathAncestors (path : String) : List String := ancestorsWithin (segmentsOf path).length path

/-- The name of what a path leads to. -/
def fileName? (path : String) : Option String :=
  match (pathParts path).getLast? with
  | some name => if name = "/" || name = "." || name = ".." then none else some name
  | none => none

/-- What follows the last dot of a name that does not start there. -/
def nameExtension? (name : List Char) : Option (List Char) :=
  let after := (name.reverse.takeWhile (· != '.')).reverse
  match (name.reverse.dropWhile (· != '.')).reverse with
  | [] => none
  | ['.'] => none
  | _ => some after

/-- The extension of the name of what a path leads to. -/
def extension? (path : String) : Option String :=
  ((fileName? path).bind fun name => nameExtension? name.toList).map String.ofList

end LintFront
