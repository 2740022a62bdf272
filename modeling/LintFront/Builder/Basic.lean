import LintFront.Builder.Grammar
import LintFront.Document.Strict
import LintFront.Error
import LintFront.Plugin.Export

/-!
# Configurations that a module builds

A module may evaluate to linters, rules and grammars. The linters come in any shape that a plugin
may export.

* `RulePredicate`: a rule that the engine applies to the issues it finds.
* `BuilderConfig`: what a module builds.
* `BuilderConfig.ofModule`: what the value of a module stands for.
* `readPreloaded`: the same from a file.
-/

namespace LintFront

/-- A rule that the engine applies to the issues it finds. -/
structure RulePredicate where
  id : String
  /-- The kinds of issues that the rule is for; none means all. -/
  kinds : List String := []
  /-- A condition, which is the engine's matter. -/
  condition : Option Value := none
  severity : Option Severity := none
  message : Option String := none
  deriving BEq, Repr, Inhabited

namespace RulePredicate

def fields : List (Field RulePredicate) := [
  .demanded "id" (readText "a string") fun r v => { r with id := v },
  .defaulted "kinds" readTexts fun r v => { r with kinds := v },
  .omittable "when" readValue fun r v => { r with condition := v },
  .omittable "severity" Severity.read fun r v => { r with severity := v },
  .omittable "message" (readText "a string") fun r v => { r with message := v }]

def read : Reader RulePredicate := readRecord "struct RulePredicate" fields default

def toValue (r : RulePredicate) : Value :=
  .object ([("id", .text r.id)] ++
    (if r.kinds.isEmpty then [] else [("kinds", textsValue r.kinds)]) ++
    memberIf "when" (fun v => v) r.condition ++
    memberIf "severity" Severity.toValue r.severity ++
    memberIf "message" .text r.message)

end RulePredicate

/-- What a module builds. -/
structure BuilderConfig where
  linters : List LinterDescriptor := []
  rules : List RulePredicate := []
  grammars : GrammarRegistry := {}
  deriving BEq, Repr, Inhabited

namespace BuilderConfig

/-- A list of exports, as the linters they hold. -/
def readLinters : Reader (List LinterDescriptor) := fun dialect t => do
  return (← readList PluginExport.read dialect t).flatMap PluginExport.flatten

def fields : List (Field BuilderConfig) := [
  .defaulted "linters" readLinters fun b v => { b with linters := v },
  .defaulted "rules" (readList RulePredicate.read) fun b v => { b with rules := v },
  .defaulted "grammars" GrammarRegistry.read fun b v => { b with grammars := v }]

def read : Reader BuilderConfig := readRecord "struct BuilderConfig" fields {}

def toValue (b : BuilderConfig) : Value :=
  .object [("linters", lintersValue b.linters),
    ("rules", .list (b.rules.map RulePredicate.toValue)), ("grammars", b.grammars.toValue)]

/-- Whether linters have been built. -/
def hasLinters (b : BuilderConfig) : Bool := !b.linters.isEmpty

/-! ## Building -/

/-- One more linter. -/
def add (b : BuilderConfig) (linter : LinterDescriptor) : BuilderConfig :=
  { b with linters := b.linters ++ [linter] }

/-- All linters of an export. -/
def addExport (b : BuilderConfig) (plugin : PluginExport) : BuilderConfig :=
  { b with linters := b.linters ++ plugin.flatten }

/-- One more rule. -/
def addRule (b : BuilderConfig) (rule : RulePredicate) : BuilderConfig :=
  { b with rules := b.rules ++ [rule] }

/-- A grammar for a language. -/
def addGrammar (b : BuilderConfig) (language : String) (grammar : Grammar) : BuilderConfig :=
  { b with grammars := b.grammars.insert language grammar }

/-! ## Modules -/

/-- What a module is read from: its default export, unless it has linters of its own. -/
def moduleBody (v : Value) : Value :=
  match v.member? "linters", v.member? "default" with
  | none, some body => body
  | _, _ => v

/-- What the value of a module stands for. -/
def ofModule (v : Value) : Read BuilderConfig := read .value (moduleBody v).toTree

end BuilderConfig

/-- What a file with the value of a module stands for. -/
def readPreloaded (disk : Disk) (path : String) : Except RunError BuilderConfig :=
  match disk.readText path with
  | .error cause => .error (.io path cause)
  | .ok text =>
    match Strict.readValue (glyphs text) with
    | .error cause => .error (.parse path (.document cause))
    | .ok v =>
      match BuilderConfig.ofModule v with
      | .error cause => .error (.parse path (.builder cause))
      | .ok builder => .ok builder

end LintFront
