import LintFront.Builder.Basic
import LintFront.Engine.Report
import LintFront.Linter.Registry
import LintFront.Plugin.Discovery

/-!
# The engine

The engine imports plugins, evaluates modules and looks at files. All that is known of it here is
what it can be asked.

* `RunOptions`: what the engine is told for a run.
* `Engine`: the questions, with an answer or a failure to each.
-/

namespace LintFront

/-- What the engine is told for a run. -/
structure RunOptions where
  projectRoot : String := ""
  included : List String := []
  excluded : List String := []
  extensions : List String := []
  /-- Specifiers of plugins; none if the linters were registered directly. -/
  plugins : List String := []
  /-- Presets that are left to the engine. -/
  inherited : List String := []
  linterConfig : Table Value := []
  scopes : Table ScopeOverride := []
  /-- The only linters that run. -/
  only : Option (List String) := none
  /-- Linters that do not run. -/
  skip : Option (List String) := none
  parallel : Bool := false
  verbose : Bool := false
  /-- Groups of linters that plugins publish. -/
  bundles : Table (List String) := []
  catalogs : Table IssueCatalog := []
  rules : List RulePredicate := []
  grammars : GrammarRegistry := {}
  deriving BEq, Repr, Inhabited

/-- A member that is there only if its list has items. -/
def memberUnlessEmpty {α : Type} (name : String) (toValue : List α → Value) (items : List α) :
    List (String × Value) :=
  if items.isEmpty then [] else [(name, toValue items)]

def RunOptions.toValue (o : RunOptions) : Value :=
  .object ([
    ("projectRoot", .text o.projectRoot),
    ("include", textsValue o.included),
    ("exclude", textsValue o.excluded),
    ("extensions", textsValue o.extensions),
    ("plugins", textsValue o.plugins),
    ("inherit", textsValue o.inherited),
    ("linterConfig", tableValue id o.linterConfig),
    ("scopes", tableValue ScopeOverride.toValue o.scopes)] ++
    memberIf "only" textsValue o.only ++
    memberIf "skip" textsValue o.skip ++
    [("parallel", .bool o.parallel), ("verbose", .bool o.verbose)] ++
    memberUnlessEmpty "bundles" (tableValue textsValue) o.bundles ++
    memberUnlessEmpty "catalogs" (tableValue IssueCatalog.toValue) o.catalogs ++
    memberUnlessEmpty "rules" (fun rules => .list (rules.map RulePredicate.toValue)) o.rules ++
    memberUnlessEmpty "grammars" (tableValue Grammar.toValue) o.grammars.grammars)

/-- What the engine answers. -/
structure Engine where
  /-- The plugins with the given specifiers, and whether the engine speaks about it. -/
  discover : List String → Bool → Except RunError Discovery
  /-- What the module at a path builds. -/
  loadModule : String → Except RunError BuilderConfig
  /-- What the registered linters find. -/
  run : RunOptions → LinterRegistry → Except RunError RunReport
  /-- A report as it is shown. -/
  format : RunReport → String := RunReport.format

end LintFront
