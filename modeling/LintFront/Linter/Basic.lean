import LintFront.Config.Basic

/-!
# Linters

A linter is known by its id. It may declare the kinds of issues that it reports.

* `IssueKind`, `IssueCatalog`: the issues that a linter may report.
* `LinterDescriptor`: what is known of a linter.
* `IssueCatalog.find?`: a kind by its id.
-/

namespace LintFront

/-- A kind of issue. -/
structure IssueKind where
  id : String
  /-- How serious such an issue is, unless a configuration says otherwise. -/
  severity : Severity
  description : Option String := none
  deriving DecidableEq, Repr, Inhabited

/-- The kinds of issues that a linter declares. -/
structure IssueCatalog where
  kinds : List IssueKind := []
  deriving DecidableEq, Repr, Inhabited

/-- What is known of a linter. -/
structure LinterDescriptor where
  id : String
  description : Option String := none
  catalog : Option IssueCatalog := none
  /-- What the linter was loaded from. -/
  source : Option String := none
  deriving DecidableEq, Repr, Inhabited

namespace IssueKind

def fields : List (Field IssueKind) := [
  .demanded "id" (readText "a string") fun k v => { k with id := v },
  .demanded "severity" Severity.read fun k v => { k with severity := v },
  .omittable "description" (readText "a string") fun k v => { k with description := v }]

def read : Reader IssueKind := readRecord "struct IssueKind" fields default

def toValue (k : IssueKind) : Value :=
  .object ([("id", .text k.id), ("severity", k.severity.toValue)] ++
    memberIf "description" .text k.description)

end IssueKind

namespace IssueCatalog

/-- A catalog is written as the list of its kinds. -/
def read : Reader IssueCatalog := fun dialect t => do
  return ⟨← readList IssueKind.read dialect t⟩

def toValue (c : IssueCatalog) : Value := .list (c.kinds.map IssueKind.toValue)

def isEmpty (c : IssueCatalog) : Bool := c.kinds.isEmpty

/-- The first kind with the given id. -/
def find? (c : IssueCatalog) (id : String) : Option IssueKind := c.kinds.find? (·.id == id)

end IssueCatalog

namespace LinterDescriptor

def fields : List (Field LinterDescriptor) := [
  .demanded "id" (readText "a string") fun l v => { l with id := v },
  .omittable "description" (readText "a string") fun l v => { l with description := v },
  .omittable "catalog" IssueCatalog.read fun l v => { l with catalog := v },
  .omittable "source" (readText "a string") fun l v => { l with source := v }]

def read : Reader LinterDescriptor := readRecord "struct LinterDescriptor" fields default

def toValue (l : LinterDescriptor) : Value :=
  .object ([("id", .text l.id)] ++
    memberIf "description" .text l.description ++
    memberIf "catalog" IssueCatalog.toValue l.catalog ++
    memberIf "source" .text l.source)

/-- How many kinds of issues a linter declares. -/
def catalogSize (l : LinterDescriptor) : Nat :=
  match l.catalog with
  | some catalog => catalog.kinds.length
  | none => 0

/-- The linter with a source, unless it has one already. -/
def orSource (l : LinterDescriptor) (source : String) : LinterDescriptor :=
  { l with source := l.source.or (some source) }

end LinterDescriptor

/-- Linters as a value. -/
def lintersValue (linters : List LinterDescriptor) : Value :=
  .list (linters.map LinterDescriptor.toValue)

end LintFront
