import LintFront.Document.Reader

/-!
# Severities

* `Severity`: how serious an issue is, from switched off to failing the run.
* `Severity.read`: a severity by its name.
-/

namespace LintFront

/-- How serious an issue is. -/
inductive Severity
  /-- The issue is switched off. -/
  | off
  /-- A note. -/
  | info
  /-- A warning; it does not fail the run. -/
  | warn
  /-- An error; it fails the run. -/
  | error
  deriving DecidableEq, Repr, Inhabited

namespace Severity

/-- The name of a severity. -/
def label : Severity → String
  | .off => "off"
  | .info => "info"
  | .warn => "warn"
  | .error => "error"

/-- The names that a severity may be given by. -/
def names : Table Severity :=
  [("off", .off), ("info", .info), ("warn", .warn), ("warning", .warn), ("error", .error)]

/-- A severity by its name. -/
def read : Reader Severity := readVariant names

/-- A severity as a value. -/
def toValue (s : Severity) : Value := .text s.label

end Severity

end LintFront
