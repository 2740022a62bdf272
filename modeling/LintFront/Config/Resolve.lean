import LintFront.Config.Resolved
import LintFront.Config.Search

/-!
# The configuration of a project

From the highest to the lowest: a file named on the command line, one named in the environment,
the configuration files from the project upward, the field of the nearest manifest. Configuration
files below the project count for their directories only.

* `Resolver`: what a resolution depends on besides the files.
* `Loaded`: its result, with the sources consulted, the lowest first.
* `Resolver.resolve`: the resolution.
* `Resolver.locateModule`: the module that a resolution would find.
-/

namespace LintFront

/-- What a resolution depends on besides the files. -/
structure Resolver where
  /-- The file named in the environment, as it stands there. -/
  environment : Option String
  /-- How presets are found by name. -/
  presets : PresetLookup
  /-- Whether the directories below a project are searched. -/
  scan : Bool := true

/-- The configuration of a project. -/
structure Loaded where
  config : ResolvedConfig
  /-- The sources consulted, the lowest first. -/
  sources : List ConfigSource
  /-- The module that evaluates to more configuration, if there is one. -/
  moduleFile : Option String
  deriving BEq, Repr, Inhabited

/-- What has been gathered so far, the highest first. -/
structure Gathered where
  layers : List Configuration := []
  sources : List ConfigSource := []
  /-- The configuration files that have been read. -/
  seen : List String := []
  moduleFile : Option String := none
  deriving BEq, Repr, Inhabited

namespace Gathered

/-- One more layer below the others. -/
def add (g : Gathered) (layer : Layer) : Gathered :=
  { g with layers := g.layers ++ [layer.config], sources := g.sources ++ layer.sources }

/-- A file that has been read. -/
def see (g : Gathered) (path : String) : Gathered := { g with seen := g.seen ++ [path] }

end Gathered

namespace Resolver

/-- The path of the file named in the environment; an empty name is none. -/
def environmentPath (r : Resolver) (disk : Disk) : Option String :=
  match r.environment with
  | some path => if path = "" then none else some (disk.absolute path)
  | none => none

/-- The layer of a file, with an empty chain before it. -/
def load (r : Resolver) (disk : Disk) (kind : SourceKind) (path : String) :
    Except RunError Layer :=
  (loadLayer disk r.presets kind path []).1

/-! ## Files named outright -/

/-- A file that is named outright: a module, of which the first one counts, or a layer. -/
def addNamed (r : Resolver) (disk : Disk) (kind : SourceKind) (path : String) (g : Gathered) :
    Except RunError Gathered := do
  if isModulePath path then
    if g.moduleFile.isSome then return g
    else
      return { g with
        moduleFile := some path
        sources := g.sources ++ [⟨path, .programmaticModule, none⟩] }
  else
    let layer ← r.load disk kind path
    let read := (layer.sources.take 1).map ConfigSource.path
    return { g.add layer with seen := g.seen ++ read }

/-- The file named on the command line must be there. -/
def addExplicit (r : Resolver) (disk : Disk) (explicit : Option String) (g : Gathered) :
    Except RunError Gathered :=
  match explicit with
  | none => .ok g
  | some path =>
    let path := disk.absolute path
    if disk.isFile path then r.addNamed disk .explicitFlag path g
    else .error (.config (.fileNotFound path))

/-- Whether the file that a path leads to has been read. -/
def alreadyRead (disk : Disk) (g : Gathered) (path : String) : Bool :=
  match disk.locate path with
  | .ok place => g.seen.contains place.toPath
  | .error _ => false

/-- The file named in the environment is left out if it is not there or has been read. -/
def addEnvironment (r : Resolver) (disk : Disk) (g : Gathered) : Except RunError Gathered :=
  match r.environmentPath disk with
  | none => .ok g
  | some path =>
    if alreadyRead disk g path then .ok g
    else if disk.isFile path then r.addNamed disk .environmentVariable path g
    else .ok g

/-! ## Upward -/

/-- The configuration files of directories from below upward. A file that ends the search is the
last one; its directory is the boundary. -/
def walkUp (r : Resolver) (disk : Disk) :
    List Place → Gathered → Except RunError (Gathered × Option Place)
  | [], g => .ok (g, none)
  | dir :: above, g =>
    match disk.findDeclarative dir with
    | none => r.walkUp disk above g
    | some path =>
      if g.seen.contains path then r.walkUp disk above g
      else
        match r.load disk .declarativeFile path with
        | .error e => .error e
        | .ok layer =>
          let g := (g.add layer).see path
          if layer.config.root = some true then .ok (g, some dir) else r.walkUp disk above g

/-- The field of the nearest manifest, as the lowest layer. -/
def addManifest (r : Resolver) (disk : Disk) (boundary : Option Place) (dirs : List Place)
    (g : Gathered) : Except RunError Gathered := do
  match ← disk.findManifest boundary dirs with
  | none => return g
  | some manifest =>
    let chain := [manifest.directory ++ [manifest.name]]
    let layer ← (expandInherited disk r.presets manifest.config manifest.directory chain).1
    return g.add ⟨layer.config, ⟨manifest.path, .manifestField, none⟩ :: layer.sources⟩

/-- The module of the project's directory, if none has been named. -/
def addModule (disk : Disk) (root : Place) (g : Gathered) : Gathered :=
  match g.moduleFile with
  | some _ => g
  | none =>
    match disk.findModule root with
    | none => g
    | some path =>
      { g with
        moduleFile := some path
        sources := ⟨path, .programmaticModule, none⟩ :: g.sources }

/-! ## Downward -/

/-- What the directories below a project contribute. -/
structure Below where
  scopes : Table ScopeOverride := []
  sources : List ConfigSource := []
  deriving BEq, Repr, Inhabited

/-- A scope that comes in above the one that its pattern has, in its place. -/
def insertAbove (scopes : Table ScopeOverride) (pattern : String) (scope : ScopeOverride) :
    Table ScopeOverride :=
  Table.upsert pattern (fun
    | some present => scope.merge present
    | none => scope) scopes

/-- The pattern that matches just the directory with the given names, as a text. -/
def escapedDirectory (names : Place) : String :=
  globEscape (ResolvedConfig.slashed ("/".intercalate names))

/-- What the layer of one directory contributes: its own settings for everything below it, and its
scopes with the directory put before their patterns. -/
def addDirectory (names : Place) (layer : Layer) (b : Below) : Below :=
  let dir := escapedDirectory names
  let subtree := dir ++ "/**"
  let own := layer.config.scopePart
  let scopes := if own.isEmpty then b.scopes else insertAbove b.scopes subtree own
  { scopes :=
      (layer.config.scopes.getD []).foldl
        (fun scopes (pattern, scope) => insertAbove scopes (dir ++ "/" ++ pattern) scope) scopes
    sources := b.sources ++ layer.sources.map (·.limitedTo subtree) }

/-- The configuration files of directories below a project, in order. -/
def scanBelow (r : Resolver) (disk : Disk) (root : Place) (seen : List String) :
    List Place → Below → Except RunError Below
  | [], b => .ok b
  | names :: rest, b =>
    match disk.findDeclarative (root ++ names) with
    | none => r.scanBelow disk root seen rest b
    | some path =>
      if seen.contains path then r.scanBelow disk root seen rest b
      else
        match r.load disk .declarativeFile path with
        | .error e => .error e
        | .ok layer => r.scanBelow disk root seen rest (addDirectory names layer b)

/-- The directories below a project that are searched, neighbours in the order of their names. -/
def scannedDirectories (disk : Disk) (root : Place) : List Place :=
  match disk.tree.at? root with
  | some tree => tree.sorted.subdirectories []
  | none => []

/-! ## The whole -/

/-- The place of a project. -/
def projectPlace (disk : Disk) (project : String) : Except RunError Place :=
  match disk.locate project with
  | .ok place => .ok place
  | .error cause => .error (.config (.invalidRoot project cause))

/-- The layers of a project that count for all of it, the highest first. -/
def gather (r : Resolver) (disk : Disk) (root : Place) (explicit : Option String) :
    Except RunError Gathered := do
  let g ← r.addExplicit disk explicit {}
  let g ← r.addEnvironment disk g
  let (g, boundary) ← r.walkUp disk root.ancestors g
  let g ← r.addManifest disk boundary root.ancestors g
  return addModule disk root g

/-- The configuration of a project. -/
def resolve (r : Resolver) (disk : Disk) (project : String) (explicit : Option String) :
    Except RunError Loaded := do
  let root ← projectPlace disk project
  let g ← r.gather disk root explicit
  let merged := Configuration.mergeAll g.layers
  let below ←
    if r.scan then r.scanBelow disk root g.seen (scannedDirectories disk root) {} else pure {}
  return {
    config := .ofMerged merged below.scopes
    sources := g.sources.reverse ++ below.sources
    moduleFile := g.moduleFile }

/-- The module that a resolution would find. -/
def locateModule (r : Resolver) (disk : Disk) (project : String) (explicit : Option String) :
    Except RunError (Option String) :=
  let usable (path : Option String) : Option String :=
    path.filter fun path => isModulePath path && disk.isFile path
  match usable (explicit.map disk.absolute) with
  | some path => .ok (some path)
  | none =>
    match usable (r.environmentPath disk) with
    | some path => .ok (some path)
    | none => (projectPlace disk project).map disk.findModule

end Resolver

end LintFront
