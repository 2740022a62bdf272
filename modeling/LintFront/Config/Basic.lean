import LintFront.Severity

/-!
# Configurations

A configuration is what one file says. Every setting is optional, so that a file speaks only of
what it sets.

* `Configuration`: the settings of one file.
* `ScopeOverride`: the settings for the files that a pattern matches.
* `Configuration.read`, `Configuration.ofText`: a configuration from a document.
* `Configuration.toValue`: a configuration as a value, with the settings it has.
-/

namespace LintFront

/-- Settings for the files that a pattern matches. -/
structure ScopeOverride where
  /-- Linters that leave the files alone. -/
  skip : Option (List String) := none
  /-- Severities by issue kind or linter. -/
  severity : Option (Table Severity) := none
  /-- Options by linter. -/
  linterConfig : Option (Table Value) := none
  deriving BEq, Repr, Inhabited

/-- The settings of one configuration file. -/
structure Configuration where
  /-- A reference to a schema, which plays no part. -/
  schema : Option String := none
  /-- Whether the search further up ends here. -/
  root : Option Bool := none
  /-- What to lint. -/
  included : Option (List String) := none
  /-- What to leave out. -/
  excluded : Option (List String) := none
  /-- The file extensions that the engine looks at. -/
  extensions : Option (List String) := none
  /-- Specifiers of plugins. -/
  plugins : Option (List String) := none
  /-- Names of presets that lie just below this file. -/
  inherited : Option (List String) := none
  /-- Options by linter. -/
  linterConfig : Option (Table Value) := none
  /-- Linters that leave every file alone. -/
  skip : Option (List String) := none
  /-- Severities by issue kind or linter. -/
  severity : Option (Table Severity) := none
  /-- Settings by pattern. -/
  scopes : Option (Table ScopeOverride) := none
  deriving BEq, Repr, Inhabited

/-! ## Reading -/

/-- A list of texts. -/
def readTexts : Reader (List String) := readList (readText "a string")

namespace ScopeOverride

def fields : List (Field ScopeOverride) := [
  .optional "skip" readTexts fun s v => { s with skip := v },
  .optional "severity" (readTable Severity.read) fun s v => { s with severity := v },
  .optional "linterConfig" (readTable readValue) fun s v => { s with linterConfig := v }]

def read : Reader ScopeOverride := readRecord "struct ScopeOverride" fields {}

/-- Whether the override says nothing. -/
def isEmpty (s : ScopeOverride) : Bool :=
  (s.skip.getD []).isEmpty && (s.severity.getD []).isEmpty && (s.linterConfig.getD []).isEmpty

/-- Whether a linter leaves the files alone. -/
def skips (s : ScopeOverride) (linter : String) : Bool := (s.skip.getD []).contains linter

end ScopeOverride

namespace Configuration

def fields : List (Field Configuration) := [
  .optional "$schema" (readText "a string") fun c v => { c with schema := v },
  .optional "root" readBool fun c v => { c with root := v },
  .optional "include" readTexts fun c v => { c with included := v },
  .optional "exclude" readTexts fun c v => { c with excluded := v },
  .optional "extensions" readTexts fun c v => { c with extensions := v },
  .optional "plugins" readTexts fun c v => { c with plugins := v },
  .orNamed (.optional "inherit" readTexts fun c v => { c with inherited := v }) "extends",
  .optional "linterConfig" (readTable readValue) fun c v => { c with linterConfig := v },
  .optional "skip" readTexts fun c v => { c with skip := v },
  .optional "severity" (readTable Severity.read) fun c v => { c with severity := v },
  .optional "scopes" (readTable ScopeOverride.read) fun c v => { c with scopes := v }]

def read : Reader Configuration := readRecord "struct ViolaConfiguration" fields {}

/-- A configuration from a value that has been read before. -/
def ofValue (v : Value) : Read Configuration := read .value v.toTree

/-- The part of a configuration that can be set for a pattern. -/
def scopePart (c : Configuration) : ScopeOverride := ⟨c.skip, c.severity, c.linterConfig⟩

end Configuration

/-! ## Values -/

/-- A list of texts as a value. -/
def textsValue (texts : List String) : Value := .list (texts.map .text)

/-- A table as a value. -/
def tableValue {α : Type} (toValue : α → Value) (t : Table α) : Value :=
  .object (t.map fun (name, a) => (name, toValue a))

/-- A member that is there only if it is set. -/
def memberIf {α : Type} (name : String) (toValue : α → Value) (a : Option α) :
    List (String × Value) :=
  match a with
  | some a => [(name, toValue a)]
  | none => []

def ScopeOverride.toValue (s : ScopeOverride) : Value :=
  .object (
    memberIf "skip" textsValue s.skip ++
    memberIf "severity" (tableValue Severity.toValue) s.severity ++
    memberIf "linterConfig" (tableValue id) s.linterConfig)

def Configuration.toValue (c : Configuration) : Value :=
  .object (
    memberIf "$schema" .text c.schema ++
    memberIf "root" .bool c.root ++
    memberIf "include" textsValue c.included ++
    memberIf "exclude" textsValue c.excluded ++
    memberIf "extensions" textsValue c.extensions ++
    memberIf "plugins" textsValue c.plugins ++
    memberIf "inherit" textsValue c.inherited ++
    memberIf "linterConfig" (tableValue id) c.linterConfig ++
    memberIf "skip" textsValue c.skip ++
    memberIf "severity" (tableValue Severity.toValue) c.severity ++
    memberIf "scopes" (tableValue ScopeOverride.toValue) c.scopes)

end LintFront
