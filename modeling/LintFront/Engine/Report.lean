import LintFront.Config.Basic
import LintFront.Files.Path

/-!
# Reports

The engine reports issues in the order in which it finds them. They are shown file by file.

* `Issue`, `RunReport`: what a run of the engine finds.
* `sections`: the issues of a report by file.
* `RunReport.format`: a report as it is shown.
-/

namespace LintFront

/-- An issue in a file. -/
structure Issue where
  linter : String
  kind : String
  severity : Severity
  file : String
  line : Option Nat := none
  column : Option Nat := none
  message : String
  deriving DecidableEq, Repr, Inhabited

/-- What a run of the engine finds. -/
structure RunReport where
  hasErrors : Bool := false
  filesChecked : Nat := 0
  issues : List Issue := []
  deriving DecidableEq, Repr, Inhabited

namespace Issue

/-- A number of lines or columns. -/
def readPosition : Reader Nat := readNatural (pow2 32) "u32"

def fields : List (Field Issue) := [
  .demanded "linter" (readText "a string") fun i v => { i with linter := v },
  .demanded "kind" (readText "a string") fun i v => { i with kind := v },
  .demanded "severity" Severity.read fun i v => { i with severity := v },
  .demanded "file" (readText "path string") fun i v => { i with file := v },
  .omittable "line" readPosition fun i v => { i with line := v },
  .omittable "column" readPosition fun i v => { i with column := v },
  .demanded "message" (readText "a string") fun i v => { i with message := v }]

def read : Reader Issue := readRecord "struct Issue" fields default

/-- A natural number as a value. -/
def naturalValue (n : Nat) : Value := .number (.integer n)

def toValue (i : Issue) : Value :=
  .object ([("linter", .text i.linter), ("kind", .text i.kind), ("severity", i.severity.toValue),
      ("file", .text i.file)] ++
    memberIf "line" naturalValue i.line ++
    memberIf "column" naturalValue i.column ++
    [("message", .text i.message)])

end Issue

namespace RunReport

def fields : List (Field RunReport) := [
  .defaulted "hasErrors" readBool fun r v => { r with hasErrors := v },
  .defaulted "filesChecked" (readNatural (pow2 64) "usize") fun r v => { r with filesChecked := v },
  .defaulted "issues" (readList Issue.read) fun r v => { r with issues := v }]

def read : Reader RunReport := readRecord "struct RunReport" fields {}

def toValue (r : RunReport) : Value :=
  .object [("hasErrors", .bool r.hasErrors), ("filesChecked", Issue.naturalValue r.filesChecked),
    ("issues", .list (r.issues.map Issue.toValue))]

/-- How many issues have a severity. -/
def count (r : RunReport) (severity : Severity) : Nat :=
  r.issues.countP (·.severity == severity)

end RunReport

/-! ## Sections -/

/-- The issues of one file, under the first spelling of its path. -/
structure Section where
  file : String
  issues : List Issue
  deriving DecidableEq, Repr, Inhabited

/-- Sections with one more issue: in the section of its file, or in a new one at the end. -/
def addIssue (issue : Issue) : List Section → List Section
  | [] => [⟨issue.file, [issue]⟩]
  | s :: rest =>
    if pathParts s.file == pathParts issue.file then
      { s with issues := s.issues ++ [issue] } :: rest
    else s :: addIssue issue rest

/-- Issues by file, the files in the order in which they first come. -/
def sections (issues : List Issue) : List Section :=
  issues.foldl (fun found issue => addIssue issue found) []

/-! ## As text -/

/-- A text with blanks after it up to a width. -/
def padded (width : Nat) (text : String) : String :=
  text ++ String.ofList (List.replicate (width - text.length) ' ')

namespace Issue

/-- Where an issue is in its file. A column means nothing without a line. -/
def position (i : Issue) : String :=
  match i.line, i.column with
  | some line, some column => toString line ++ ":" ++ toString column
  | some line, none => toString line
  | none, _ => "-"

/-- An issue on a line of its own. -/
def format (i : Issue) : String :=
  "  " ++ padded 8 i.position ++ " " ++ padded 6 i.severity.label ++ " " ++ i.kind ++ "  " ++
  i.message ++ " (" ++ i.linter ++ ")\n"

end Issue

/-- A section under its heading, and a blank line. -/
def Section.format (s : Section) : String :=
  s.file ++ "\n" ++ String.join (s.issues.map Issue.format) ++ "\n"

namespace RunReport

/-- The line that sums a report up. -/
def summary (r : RunReport) : String :=
  toString r.issues.length ++ " problem(s) (" ++ toString (r.count .error) ++ " error(s), " ++
  toString (r.count .warn) ++ " warning(s)) in " ++ toString r.filesChecked ++
  " file(s) checked.\n"

/-- A report as it is shown. -/
def format (r : RunReport) : String :=
  if r.issues.isEmpty then "No issues found in " ++ toString r.filesChecked ++ " file(s).\n"
  else String.join ((sections r.issues).map Section.format) ++ r.summary

end RunReport

end LintFront
