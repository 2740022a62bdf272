import LintFront.Config.Basic

/-!
# Merging configurations

A configuration takes precedence over those below it. Merging brings a lower one into a higher one
and never changes what the higher one has decided.

* `union`: the entries of a list, then those of another that it does not have yet.
* `dedupe`: a list with first occurrences only.
* `ScopeOverride.merge`, `Configuration.merge`: the higher one with the lower one brought in.
* `Configuration.mergeAll`: a list of layers, the highest first, as one configuration.
-/

namespace LintFront

/-- The entries of `target`, then those of `source` that are not there yet. -/
def union (target source : List String) : List String :=
  source.foldl (fun done entry => if done.contains entry then done else done ++ [entry]) target

/-- A list with first occurrences only. -/
def dedupe (list : List String) : List String := union [] list

/-- The union of two optional lists. A list that is missing above counts as empty, and one that is
missing below changes nothing. -/
def unionOption (target source : Option (List String)) : Option (List String) :=
  match source with
  | none => target
  | some source => some (union (target.getD []) source)

/-- Two optional tables merged as `combine` says at common names. -/
def mergeTables {α : Type} (combine : α → α → α) (target source : Option (Table α)) :
    Option (Table α) :=
  match source with
  | none => target
  | some source => some (Table.mergeWith combine (target.getD []) source)

/-- The present value stays. -/
def keepFirst {α : Type} (present _lower : α) : α := present

/-- A narrower or higher override with a broader or lower one brought in. -/
def ScopeOverride.merge (s lower : ScopeOverride) : ScopeOverride where
  skip := unionOption s.skip lower.skip
  severity := mergeTables keepFirst s.severity lower.severity
  linterConfig := mergeTables Value.merge s.linterConfig lower.linterConfig

/-- A configuration with a lower one brought in: lists are joined, options merged in depth, and
what is said once for a name or a pattern is completed, not replaced. -/
def Configuration.merge (c lower : Configuration) : Configuration where
  schema := c.schema.or lower.schema
  root := c.root.or lower.root
  included := unionOption c.included lower.included
  excluded := unionOption c.excluded lower.excluded
  extensions := unionOption c.extensions lower.extensions
  plugins := unionOption c.plugins lower.plugins
  inherited := unionOption c.inherited lower.inherited
  linterConfig := mergeTables Value.merge c.linterConfig lower.linterConfig
  skip := unionOption c.skip lower.skip
  severity := mergeTables keepFirst c.severity lower.severity
  scopes := mergeTables ScopeOverride.merge c.scopes lower.scopes

/-- Layers, the highest first, as one configuration. -/
def Configuration.mergeAll (layers : List Configuration) : Configuration :=
  layers.foldl Configuration.merge {}

end LintFront
