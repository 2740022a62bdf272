import LintFront.Document.Value
import LintFront.Files.Path

/-!
# Where configurations come from

* `declarativeFiles`, `manifestFiles`, `moduleFiles`: the names that are looked for.
* `isModulePath`: whether a path names a module that evaluates to a configuration.
* `ConfigSource`: a place that was consulted.
-/

namespace LintFront

/-- Names of configuration files, in the order in which a directory is searched for them. -/
def declarativeFiles : List String :=
  [".violarc.json", ".violarc.jsonc", "viola.jsonc", "viola.json"]

/-- Names of manifests that may hold a configuration as a field. -/
def manifestFiles : List String := ["deno.json", "deno.jsonc", "package.json"]

/-- The field of a manifest that holds a configuration. -/
def manifestField : String := "viola"

/-- Names of modules that evaluate to a configuration. -/
def moduleFiles : List String := ["viola.config.ts", "viola.config.js", "viola.config.mjs"]

/-- Extensions of modules. -/
def moduleExtensions : List String := ["ts", "mts", "tsx", "js", "mjs"]

/-- Names of the files that hold a preset in its package, in the order of the search. -/
def presetFiles : List String := ["viola.json", "viola.jsonc"]

/-- The directory that packages are installed in. -/
def packageDirectory : String := "node_modules"

/-- Directories that are not searched for configurations. -/
def skippedDirectories : List String := ["node_modules", "target", "dist", "vendor", "coverage"]

/-- Whether a directory is passed over in the search below a project. -/
def isSkippedDirectory (name : String) : Bool :=
  name.toList.head? = some '.' || skippedDirectories.contains name

/-- Whether a path names a module. -/
def isModulePath (path : String) : Bool :=
  match extension? path with
  | some extension => moduleExtensions.contains extension
  | none => false

/-- Whether the name of a preset is a path. -/
def isPresetPath (name : String) : Bool :=
  "./".toList.isPrefixOf name.toList || "../".toList.isPrefixOf name.toList || isAbsolute name ||
  ".json".toList.isSuffixOf name.toList || ".jsonc".toList.isSuffixOf name.toList

/-- The kinds of places that a configuration comes from. -/
inductive SourceKind
  | explicitFlag
  | environmentVariable
  | declarativeFile
  | manifestField
  | programmaticModule
  | preset
  deriving DecidableEq, Repr, Inhabited

def SourceKind.label : SourceKind → String
  | .explicitFlag => "explicit-flag"
  | .environmentVariable => "environment-variable"
  | .declarativeFile => "declarative-file"
  | .manifestField => "manifest-field"
  | .programmaticModule => "programmatic-module"
  | .preset => "preset"

/-- A place that was consulted. -/
structure ConfigSource where
  path : String
  kind : SourceKind
  /-- The pattern that the source is limited to, if it is. -/
  scope : Option String := none
  deriving DecidableEq, Repr, Inhabited

namespace ConfigSource

/-- The same source, limited to a pattern. -/
def limitedTo (source : ConfigSource) (scope : String) : ConfigSource :=
  { source with scope := some scope }

def toValue (source : ConfigSource) : Value :=
  .object ([("path", .text source.path), ("type", .text source.kind.label)] ++
    match source.scope with
    | some scope => [("scope", .text scope)]
    | none => [])

end ConfigSource

end LintFront
