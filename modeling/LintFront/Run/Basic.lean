import LintFront.Config.Resolve
import LintFront.Engine.Basic
import LintFront.Module.Origin
import LintFront.Module.Strategy

/-!
# A run

A run evaluates the module of a project, resolves the project's configuration, gathers the linters,
and has the engine look at the files. Whatever it asks the outside world, and whatever it tells the
user, it does in steps that can be listed.

* `RunArgs`: what a run is asked to do.
* `Event`: what the user is told.
* `Step`, `Work`: the steps of a run, and work that takes steps.
* `Orchestrator.run`: a run, with its exit code and its steps.
-/

namespace LintFront

/-- What is linted if nothing says otherwise. -/
def defaultInclude : List String := ["src", "packages", "app"]

/-- What a run is asked to do. -/
structure RunArgs where
  project : String := "."
  config : Option String := none
  included : Option (List String) := none
  /-- Specifiers of plugins in place of the configured ones. -/
  plugins : Option (List String) := none
  only : Option (List String) := none
  skip : Option (List String) := none
  /-- Whether errors do not fail the run. -/
  reportOnly : Bool := false
  verbose : Bool := false
  /-- Whether the linters are listed, and nothing else is done. -/
  list : Bool := false
  parallel : Bool := false
  /-- A file with the value of the module. -/
  preloaded : Option String := none
  deriving DecidableEq, Repr, Inhabited

/-- What the user is told. -/
inductive Event
  /-- The sources of the configuration. -/
  | sources (sources : List ConfigSource)
  | pluginFailure (failure : PluginFailure)
  | linters (registry : LinterRegistry)
  | noLinters
  | results (text : String)
  | failed (error : RunError) (verbose : Bool)
  deriving Repr, Inhabited

/-- A step of a run. -/
inductive Step
  /-- The module at a path is evaluated. -/
  | evaluate (path : String)
  /-- The engine is asked for plugins. -/
  | discover (specifiers : List String) (verbose : Bool)
  /-- The engine looks at the files. -/
  | lint (options : RunOptions) (registry : LinterRegistry)
  | tell (event : Event)
  deriving Repr, Inhabited

/-! ## Work that takes steps -/

/-- Work that takes steps, and comes to a result or fails. -/
abbrev Work (α : Type) := ExceptT RunError (StateM (List Step)) α

namespace Work

/-- One step. -/
def step (s : Step) : Work Unit := modifyThe (List Step) (· ++ [s])

/-- The user is told something. -/
def tell (event : Event) : Work Unit := step (.tell event)

/-- A result that needs no step. -/
def known {α : Type} (result : Except RunError α) : Work α := ExceptT.mk (pure result)

/-- A step with its result. -/
def ask {α : Type} (s : Step) (result : Except RunError α) : Work α := do
  step s
  known result

end Work

/-! ## Choices -/

/-- The paths to lint: those of the command line, else the configured ones, else the usual ones. -/
def resolveInclude (given : Option (List String)) (configured : List String) : List String :=
  match given.getD [], configured with
  | [], [] => defaultInclude
  | [], configured => configured
  | given, _ => given

/-- The exit code of a run that has come to its end. -/
def exitCode (hasErrors reportOnly : Bool) : UInt8 := if hasErrors && !reportOnly then 1 else 0

/-- The inherited names that plugins publish as presets, brought in one after the other. -/
def applyPresets (presets : Table Value) :
    List String → ResolvedConfig → Except RunError ResolvedConfig
  | [], c => .ok c
  | name :: rest, c =>
    match presets.find? name with
    | none => applyPresets presets rest c
    | some v =>
      match Configuration.ofValue v with
      | .error cause => .error (.config (.invalidPreset name cause))
      | .ok preset => applyPresets presets rest (c.mergePreset name preset)

/-- The presets that plugins publish, brought into a configuration that inherits them. -/
def ResolvedConfig.applyPresets (c : ResolvedConfig) (presets : Table Value) :
    Except RunError ResolvedConfig :=
  LintFront.applyPresets presets c.inherited c

/-! ## Running -/

/-- What a run works with. -/
structure Orchestrator where
  engine : Engine
  resolver : Resolver
  origin : Origin
  /-- How modules are evaluated by an installed program. -/
  evaluateHere : ModuleStrategy
  /-- How modules are evaluated by a program loaded over the network. -/
  bridge : ModuleStrategy

/-- The linters of a run, and what comes with them. -/
structure Gathering where
  registry : LinterRegistry := {}
  /-- Specifiers of the plugins that the linters come from. -/
  plugins : List String := []
  config : ResolvedConfig
  bundles : Table (List String) := []
  deriving BEq, Repr, Inhabited

namespace Orchestrator

/-- The place of a project, as a path. -/
def projectRoot (disk : Disk) (project : String) : Except RunError String :=
  match disk.locate project with
  | .ok place => .ok place.toPath
  | .error cause => .error (.config (.invalidProject project cause))

/-- How a module is evaluated. -/
def strategy (o : Orchestrator) : ModuleStrategy :=
  if o.origin.isRemote then o.bridge else o.evaluateHere

/-- What the module of a project builds. A value that has been handed over counts as its value; a
project without a module builds nothing. -/
def evaluate (o : Orchestrator) (disk : Disk) (root : String) (args : RunArgs) :
    Work ModuleOutcome :=
  match args.preloaded with
  | some path => .known ((readPreloaded disk path).map .loaded)
  | none => do
    match ← Work.known (o.resolver.locateModule disk root args.config) with
    | some path => Work.ask (.evaluate path) (o.strategy path)
    | none => return .loaded {}

/-- The linters of plugins. What is wrong with a plugin is told, and the others count. -/
def discover (o : Orchestrator) (args : RunArgs) (config : ResolvedConfig)
    (specifiers : List String) : Work Gathering := do
  let found ← Work.ask (.discover specifiers args.verbose)
    (o.engine.discover specifiers args.verbose)
  for failure in found.failures do
    Work.tell (.pluginFailure failure)
  return {
    registry := LinterRegistry.registerAll {} found.linters
    plugins := specifiers
    config := ← Work.known (config.applyPresets found.presets)
    bundles := found.bundles }

/-- The linters of a run: those that the module has built, else those of the plugins. -/
def gather (o : Orchestrator) (args : RunArgs) (builder : BuilderConfig)
    (config : ResolvedConfig) : Work Gathering :=
  let specifiers :=
    match args.plugins with
    | some plugins => dedupe plugins
    | none => config.plugins
  if builder.hasLinters then
    return { registry := LinterRegistry.registerAll {} builder.linters, config }
  else if specifiers.isEmpty then return { config }
  else o.discover args config specifiers

/-- What the engine is told for a run. -/
def options (root : String) (args : RunArgs) (builder : BuilderConfig) (g : Gathering) :
    RunOptions where
  projectRoot := root
  included := resolveInclude args.included g.config.included
  excluded := g.config.excluded
  extensions := g.config.extensions
  plugins := g.plugins
  inherited := g.config.inherited
  linterConfig := g.config.linterConfig
  scopes := g.config.scopes
  only := args.only
  skip := args.skip
  parallel := args.parallel
  verbose := args.verbose
  bundles := g.bundles
  catalogs := g.registry.catalogs
  rules := builder.rules
  grammars := builder.grammars

/-- The rest of a run, once the module has been evaluated. -/
def lint (o : Orchestrator) (disk : Disk) (root : String) (args : RunArgs)
    (builder : BuilderConfig) : Work UInt8 := do
  let loaded ← Work.known (o.resolver.resolve disk root args.config)
  if args.verbose then
    Work.tell (.sources loaded.sources)
  let g ← o.gather args builder loaded.config
  if g.registry.isEmpty then
    throw .noPlugins
  if args.list then
    Work.tell (.linters g.registry)
    return 0
  let options := options root args builder g
  let report ← Work.ask (.lint options g.registry) (o.engine.run options g.registry)
  Work.tell (.results (o.engine.format report))
  return exitCode report.hasErrors args.reportOnly

/-- A run up to its exit code or its failure. -/
def execute (o : Orchestrator) (disk : Disk) (args : RunArgs) : Work UInt8 := do
  let root ← Work.known (projectRoot disk args.project)
  match ← o.evaluate disk root args with
  | .delegated code => return code
  | .loaded builder => o.lint disk root args builder

/-- A run, with its exit code and its steps. A failure is told, and only a list without linters is
none. -/
def run (o : Orchestrator) (disk : Disk) (args : RunArgs) : UInt8 × List Step :=
  match (o.execute disk args).run.run [] with
  | (.ok code, steps) => (code, steps)
  | (.error e, steps) =>
    if args.list && e == .noPlugins then (0, steps ++ [.tell .noLinters])
    else (1, steps ++ [.tell (.failed e args.verbose)])

end Orchestrator

end LintFront
