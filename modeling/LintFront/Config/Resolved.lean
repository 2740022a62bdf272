import LintFront.Config.Merge
import LintFront.Glob.Specificity

/-!
# Resolved configurations

All layers of a project merged into one, with the settings for single files kept by pattern.

* `ResolvedConfig`: the result, in which every list and table is there.
* `ResolvedConfig.ofMerged`: the merged layers and the scopes of the directories below.
* `ResolvedConfig.scopeFor`: the settings for one file.
* `ResolvedConfig.mergePreset`: a preset of a plugin brought in below everything else.
-/

namespace LintFront

/-- The pattern of the settings for every file. -/
def globalScope : String := "**"

/-- The merged configuration of a project. -/
structure ResolvedConfig where
  included : List String := []
  excluded : List String := []
  extensions : List String := []
  plugins : List String := []
  /-- Presets that are left to the engine. -/
  inherited : List String := []
  linterConfig : Table Value := []
  /-- Settings by pattern. -/
  scopes : Table ScopeOverride := []
  deriving BEq, Repr, Inhabited

namespace ResolvedConfig

/-! ## From merged layers -/

/-- The settings of a configuration for every file. -/
def globalOverride (c : Configuration) : ScopeOverride := ⟨c.skip, c.severity, none⟩

/-- A scope that comes in later: it moves to the end, and completes itself from the one that was
there. -/
def insertLater (scopes : Table ScopeOverride) (pattern : String) (scope : ScopeOverride) :
    Table ScopeOverride :=
  match scopes.find? pattern with
  | some present => Table.erase scopes pattern ++ [(pattern, scope.merge present)]
  | none => scopes ++ [(pattern, scope)]

/-- Scopes that come in later, in order. -/
def insertAllLater (scopes later : Table ScopeOverride) : Table ScopeOverride :=
  later.foldl (fun scopes (pattern, scope) => insertLater scopes pattern scope) scopes

/-- The scopes that a project's own settings start with. -/
def globalScopes (c : Configuration) : Table ScopeOverride :=
  let scope := globalOverride c
  if scope.isEmpty then [] else [(globalScope, scope)]

/-- The merged layers of a project, and the scopes of the directories below it, as the resolved
configuration. -/
def ofMerged (merged : Configuration) (below : Table ScopeOverride) : ResolvedConfig where
  included := merged.included.getD []
  excluded := merged.excluded.getD []
  extensions := merged.extensions.getD []
  plugins := merged.plugins.getD []
  inherited := merged.inherited.getD []
  linterConfig := merged.linterConfig.getD []
  scopes := insertAllLater (insertAllLater (globalScopes merged) (merged.scopes.getD [])) below

/-! ## The settings of one file -/

/-- A path with slashes only. -/
def slashed (path : String) : String := path.map fun c => if c = '\\' then '/' else c

/-- A scope at its place among others, the most specific first; of equally specific ones the one
that comes later goes first. -/
def insertRanked (scope : String × ScopeOverride) :
    Table ScopeOverride → Table ScopeOverride
  | [] => [scope]
  | other :: rest =>
    if specificity other.1 ≤ specificity scope.1 then scope :: other :: rest
    else other :: insertRanked scope rest

/-- The scopes whose pattern matches a path, the most decisive first. -/
def matching (c : ResolvedConfig) (path : String) : Table ScopeOverride :=
  (c.scopes.filter fun scope => globMatches scope.1 (slashed path)).foldl
    (fun ranked scope => insertRanked scope ranked) []

/-- The settings for the file at a path, relative to the project. -/
def scopeFor (c : ResolvedConfig) (path : String) : ScopeOverride :=
  ((c.matching path).map Prod.snd).foldl ScopeOverride.merge {}

/-! ## Presets of plugins -/

/-- A preset that a plugin publishes under a name, brought in below everything resolved so far.
Its own plugins and presets are not followed. -/
def mergePreset (c : ResolvedConfig) (name : String) (preset : Configuration) : ResolvedConfig where
  included := union c.included (preset.included.getD [])
  excluded := union c.excluded (preset.excluded.getD [])
  extensions := union c.extensions (preset.extensions.getD [])
  plugins := c.plugins
  inherited := c.inherited.filter (· != name)
  linterConfig := Table.mergeWith Value.merge c.linterConfig (preset.linterConfig.getD [])
  scopes :=
    Table.mergeWith ScopeOverride.merge
      (Table.mergeWith ScopeOverride.merge c.scopes (globalScopes preset))
      (preset.scopes.getD [])

/-! ## As a value -/

/-- The settings of a resolved configuration as members of an object. -/
def members (c : ResolvedConfig) : List (String × Value) := [
  ("include", textsValue c.included),
  ("exclude", textsValue c.excluded),
  ("extensions", textsValue c.extensions),
  ("plugins", textsValue c.plugins),
  ("inherit", textsValue c.inherited),
  ("linterConfig", tableValue id c.linterConfig),
  ("scopes", tableValue ScopeOverride.toValue c.scopes)]

def toValue (c : ResolvedConfig) : Value := .object c.members

end ResolvedConfig

end LintFront
