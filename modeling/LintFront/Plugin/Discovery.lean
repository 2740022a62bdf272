import LintFront.Error
import LintFront.Plugin.Export

/-!
# The discovery of plugins

The engine imports plugins and replies with what each of them exports, or with what went wrong. A
plugin that fails, or that exports no linters, is reported and left out.

* `DiscoveryReply`: the reply.
* `DiscoveredPlugin.linters`: the linters of one plugin, or why it has none.
* `Discovery.ofReply`: the linters of all plugins, with the failures.
-/

namespace LintFront

/-- What the engine says of one plugin. -/
structure DiscoveredPlugin where
  specifier : String
  exports : Option PluginExport := none
  /-- What went wrong when the plugin was imported. -/
  error : Option String := none
  deriving Repr, Inhabited

/-- The reply of the engine. -/
structure DiscoveryReply where
  plugins : List DiscoveredPlugin := []
  bundles : Table (List String) := []
  presets : Table Value := []
  deriving Repr, Inhabited

/-- A plugin that is of no use. -/
structure PluginFailure where
  specifier : String
  message : String
  deriving DecidableEq, Repr, Inhabited

/-- What a discovery has found. -/
structure Discovery where
  linters : List LinterDescriptor := []
  /-- Groups of linters by name. -/
  bundles : Table (List String) := []
  /-- Configurations that plugins publish by name. -/
  presets : Table Value := []
  failures : List PluginFailure := []
  deriving BEq, Repr, Inhabited

namespace DiscoveredPlugin

def fields : List (Field DiscoveredPlugin) := [
  .demanded "specifier" (readText "a string") fun p v => { p with specifier := v },
  .omittable "exports" PluginExport.read fun p v => { p with exports := v },
  .omittable "error" (readText "a string") fun p v => { p with error := v }]

def read : Reader DiscoveredPlugin := readRecord "struct DiscoveredPlugin" fields default

/-- The linters of a plugin, each with the plugin as its source if it names none. -/
def linters (p : DiscoveredPlugin) : Except RunError (List LinterDescriptor) :=
  match p.error with
  | some message => .error (.plugin p.specifier (.other message))
  | none =>
    match (p.exports.map PluginExport.flatten).getD [] with
    | [] => .error (.plugin p.specifier .noLinters)
    | found => .ok (found.map (·.orSource p.specifier))

end DiscoveredPlugin

namespace DiscoveryReply

def fields : List (Field DiscoveryReply) := [
  .defaulted "plugins" (readList DiscoveredPlugin.read) fun r v => { r with plugins := v },
  .defaulted "bundles" (readTable readTexts) fun r v => { r with bundles := v },
  .defaulted "presets" (readTable readValue) fun r v => { r with presets := v }]

def read : Reader DiscoveryReply := readRecord "struct DiscoveryReply" fields {}

end DiscoveryReply

namespace PluginFailure

def toValue (f : PluginFailure) : Value :=
  .object [("specifier", .text f.specifier), ("message", .text f.message)]

end PluginFailure

namespace Discovery

/-- Whether no linter has been found. -/
def isEmpty (d : Discovery) : Bool := d.linters.isEmpty

/-- One more plugin: its linters come in at the end, or its failure does. -/
def addPlugin (d : Discovery) (p : DiscoveredPlugin) : Except RunError Discovery := do
  let loaded := p.linters
  let failures :=
    match loaded with
    | .ok _ => d.failures
    | .error e => d.failures ++ [⟨p.specifier, e.message⟩]
  let linters := (← skipFailedPlugin loaded).getD []
  return { d with failures, linters := d.linters ++ linters }

/-- More plugins, in order. -/
def addPlugins (d : Discovery) : List DiscoveredPlugin → Except RunError Discovery
  | [] => .ok d
  | p :: rest => do addPlugins (← d.addPlugin p) rest

/-- What a reply holds. -/
def ofReply (reply : DiscoveryReply) : Except RunError Discovery :=
  addPlugins { bundles := reply.bundles, presets := reply.presets } reply.plugins

end Discovery

end LintFront
