import LintFront.Document.Fault
import LintFront.Document.Value

/-!
# A document as it is read

Reading goes through a document from its beginning to its end, and the first fault that it meets
is the one reported. A tree keeps that order: each token carries what it denotes or the fault in
it, and a list or an object whose text breaks off says so after its last whole part.

* `Tree`: a document with its faults in their places.
* `Tree.found`: what a message calls a tree.
* `Tree.toValue`: the value of a tree, or its first fault.
* `Tree.skip`: passing over a part that nobody asks for.
* `Value.toTree`: a value as a tree without faults.
-/

namespace LintFront

/-- A token's meaning, or the fault in it. -/
abbrev Read (α : Type) := Except ReadFault α

/-- A document with its faults in their places. -/
inductive Tree
  | null
  | bool (b : Bool)
  | number (n : Read Number)
  | text (s : Read String)
  /-- Items, and the fault at which the text of the list breaks off. -/
  | list (items : List Tree) (stop : Option ReadFault)
  /-- Members, and the fault at which the text of the object breaks off. -/
  | object (members : List (Read String × Tree)) (stop : Option ReadFault)
  /-- A part nested deeper than a reader follows. -/
  | deep (inner : Tree)
  /-- Text that is no document. -/
  | broken (fault : ReadFault)
  deriving Inhabited

/-- No fault, or the one given. -/
def Read.unless : Option ReadFault → Read Unit
  | none => .ok ()
  | some fault => .error fault

namespace Tree

/-- What a message calls a tree; a fault in a token comes first. -/
def found : Tree → Read Found
  | .null => .ok .null
  | .bool b => .ok (.bool b)
  | .number n => n.map fun
    | .integer n => .integer n
    | .double x => .double x
  | .text s => s.map .text
  | .list .. => .ok .list
  | .object .. => .ok .object
  | .deep inner => inner.found
  | .broken fault => .error fault

/-- The failure to find what is expected. -/
def mismatch {α : Type} (t : Tree) (dialect : Dialect) (expected : String) : Read α := do
  let found ← t.found
  .error (.wrongType dialect found expected)

/-! ## Values -/

/-- A number of a value; doubles that are no numbers have no place there. -/
def numberValue : Number → Value
  | .double x => if x.isFinite then .number (.double x) else .null
  | n => .number n

mutual

/-- The value of a tree, or its first fault. -/
def toValue : Tree → Read Value
  | .null => .ok .null
  | .bool b => .ok (.bool b)
  | .number n => n.map numberValue
  | .text s => s.map .text
  | .list items stop => do
    let values ← itemValues items
    Read.unless stop
    return .list values
  | .object members stop => do
    let values ← memberValues [] members
    Read.unless stop
    return .object values
  | .deep _ => .error (.grammar .strict)
  | .broken fault => .error fault

/-- The values of items in order. -/
def itemValues : List Tree → Read (List Value)
  | [] => .ok []
  | t :: rest => do
    let value ← toValue t
    let values ← itemValues rest
    return value :: values

/-- The members read so far, with those that follow: the last value of a name counts, in the
place of its first. -/
def memberValues (done : List (String × Value)) :
    List (Read String × Tree) → Read (List (String × Value))
  | [] => .ok done
  | (name, t) :: rest => do
    let name ← name
    let value ← toValue t
    memberValues (Table.put done name value) rest

end

/-! ## Parts that nobody asks for -/

mutual

/-- Passing over strict text: tokens need only be well formed, whatever they denote, and any
depth will do. -/
def skipStrict : Tree → Read Unit
  | .list items stop => do
    skipItems items
    Read.unless stop
  | .object members stop => do
    skipMembers members
    Read.unless stop
  | .deep inner => skipStrict inner
  | .broken fault => .error fault
  | _ => .ok ()

def skipItems : List Tree → Read Unit
  | [] => .ok ()
  | t :: rest => do
    skipStrict t
    skipItems rest

def skipMembers : List (Read String × Tree) → Read Unit
  | [] => .ok ()
  | (_, t) :: rest => do
    skipStrict t
    skipMembers rest

end

/-- Passing over a part that nobody asks for. Relaxed text is read all the same. -/
def skip (dialect : Dialect) (t : Tree) : Read Unit :=
  match dialect with
  | .relaxed => t.toValue.map fun _ => ()
  | .strict => t.skipStrict
  | .value => .ok ()

end Tree

/-! ## Values as trees -/

namespace Value

mutual

/-- A value as a tree without faults. -/
def toTree : Value → Tree
  | .null => .null
  | .bool b => .bool b
  | .number n => .number (.ok n)
  | .text s => .text (.ok s)
  | .list items => .list (itemTrees items) none
  | .object members => .object (memberTrees members) none

def itemTrees : List Value → List Tree
  | [] => []
  | v :: rest => toTree v :: itemTrees rest

def memberTrees : List (String × Value) → List (Read String × Tree)
  | [] => []
  | (name, v) :: rest => (.ok name, toTree v) :: memberTrees rest

end

end Value

end LintFront
