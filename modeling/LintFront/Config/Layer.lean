import LintFront.Config.Merge
import LintFront.Config.Source
import LintFront.Document.Relaxed
import LintFront.Error

/-!
# Layers and their presets

A configuration file names presets, which lie just below it and may name presets themselves. A
layer is a file with all the presets that can be found merged below it.

* `PresetLookup`, `installedPreset`: how a preset is found by its name.
* `Layer`: a merged configuration and its sources, the highest first.
* `Disk.readConfig`: the configuration of one file.
* `loadLayer`: the layer of a file. The chain holds the files whose presets are being loaded; a
  file that comes again in it is an error.
* `expandInherited`: a configuration with its presets merged below it.
-/

namespace LintFront

/-- How the file of a preset is found by its name, from the directory of the file that names it. -/
abbrev PresetLookup := String → Place → Option String

/-- The files whose presets are being loaded, the outermost first. -/
abbrev Chain := List Place

/-- A merged configuration and its sources, the highest first. -/
structure Layer where
  config : Configuration
  sources : List ConfigSource
  deriving BEq, Repr, Inhabited

/-- The file of a package that is installed in the first possible one of some directories. -/
def presetAmong (disk : Disk) (name : String) (directories : List String) : Option String :=
  directories.findSome? fun dir =>
    let package := joinPath (joinPath dir packageDirectory) name
    (presetFiles.map (joinPath package)).find? disk.isFile

/-- The file of a package that is installed in a directory or in one above it. -/
def installedPreset (disk : Disk) : PresetLookup := fun name base =>
  presetAmong disk name (base.ancestors.map Place.toPath)

/-- The configuration that a text holds. The path is the one that errors name. -/
def parseConfig (path text : String) : Except RunError Configuration :=
  match Relaxed.typed Configuration.read text with
  | .ok config => .ok config
  | .error cause => .error (.parse path (.document cause))

namespace Disk

/-- The configuration of the file that a path leads to. -/
def readConfig (disk : Disk) (path : String) : Except RunError Configuration :=
  match disk.readText path with
  | .ok text => parseConfig path text
  | .error cause => .error (.io path cause)

/-- The configuration of the file at a place. -/
def readConfigAt (disk : Disk) (place : Place) : Except RunError Configuration :=
  match disk.textAt place with
  | .ok text => parseConfig place.toPath text
  | .error cause => .error (.io place.toPath cause)

/-- The file of a preset that is named from a directory; `none` if only the engine can know it. -/
def locatePreset (disk : Disk) (lookup : PresetLookup) (base : Place) (name : String) :
    Except RunError (Option String) :=
  if isPresetPath name then
    let path := joinPath base.toPath name
    if disk.isFile path then .ok (some path) else .error (.config (.inheritNotFound path))
  else .ok (lookup name base)

end Disk

/-- The presets of a configuration: the layers found, and the names left to the engine. -/
structure Presets where
  layers : List Layer
  unresolved : List String
  deriving BEq, Repr, Inhabited

/-- The presets with the given names in order, each loaded by `load`, which is given the chain and
gives it back. -/
def loadPresets (disk : Disk) (lookup : PresetLookup) (base : Place)
    (load : String → Chain → Except RunError Layer × Chain) :
    List String → Chain → Except RunError Presets × Chain
  | [], chain => (.ok ⟨[], []⟩, chain)
  | name :: rest, chain =>
    match disk.locatePreset lookup base name with
    | .error e => (.error e, chain)
    | .ok none =>
      match loadPresets disk lookup base load rest chain with
      | (.ok presets, chain) =>
        (.ok { presets with unresolved := name :: presets.unresolved }, chain)
      | (.error e, chain) => (.error e, chain)
    | .ok (some path) =>
      match load path chain with
      | (.error e, chain) => (.error e, chain)
      | (.ok layer, chain) =>
        match loadPresets disk lookup base load rest chain with
        | (.ok presets, chain) => (.ok { presets with layers := layer :: presets.layers }, chain)
        | (.error e, chain) => (.error e, chain)

/-- A configuration with its presets merged below it, the earlier ones above the later ones. The
names left to the engine stay with it. -/
def Presets.below (presets : Presets) (config : Configuration) : Layer where
  config :=
    (presets.layers.map Layer.config).foldl Configuration.merge
      { config with
        inherited := if presets.unresolved.isEmpty then none else some presets.unresolved }
  sources := presets.layers.flatMap Layer.sources

/-- A configuration with its presets, each loaded by `load`, merged below it. -/
def expandWith (disk : Disk) (lookup : PresetLookup)
    (load : String → Chain → Except RunError Layer × Chain)
    (config : Configuration) (base : Place) (chain : Chain) : Except RunError Layer × Chain :=
  match loadPresets disk lookup base load (config.inherited.getD []) chain with
  | (.ok presets, chain) => (.ok (presets.below config), chain)
  | (.error e, chain) => (.error e, chain)

/-- The layer of the file that a path leads to. `budget` is the number of files that may still
come into the chain; where none is left, every file is in it. -/
def loadWithin (disk : Disk) (lookup : PresetLookup) :
    Nat → SourceKind → String → Chain → Except RunError Layer × Chain
  | budget, kind, path, chain =>
    match disk.locate path with
    | .error cause => (.error (.io path cause), chain)
    | .ok place =>
      if chain.contains place then (.error (.config (.circularInherit place.toPath)), chain)
      else
        match disk.readConfigAt place with
        | .error e => (.error e, chain)
        | .ok config =>
          match budget with
          | 0 => (.error (.config (.circularInherit place.toPath)), chain)
          | budget + 1 =>
            let (layer, chain) :=
              expandWith disk lookup (loadWithin disk lookup budget .preset) config place.parent
                (chain ++ [place])
            (layer.map fun layer => ⟨layer.config, ⟨place.toPath, kind, none⟩ :: layer.sources⟩,
              chain.dropLast)
termination_by structural budget => budget

/-- The number of files that are not in a chain. -/
def unvisited (disk : Disk) (chain : Chain) : Nat :=
  ((disk.tree.filePlaces []).filter fun place => !chain.contains place).length

/-- The layer of the file that a path leads to, and the chain after it. -/
def loadLayer (disk : Disk) (lookup : PresetLookup) (kind : SourceKind) (path : String)
    (chain : Chain) : Except RunError Layer × Chain :=
  loadWithin disk lookup (unvisited disk chain) kind path chain

/-- A configuration that belongs to a directory, with its presets merged below it. -/
def expandInherited (disk : Disk) (lookup : PresetLookup) (config : Configuration) (base : Place)
    (chain : Chain) : Except RunError Layer × Chain :=
  expandWith disk lookup (loadWithin disk lookup (unvisited disk chain) .preset) config base chain

end LintFront
