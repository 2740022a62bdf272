import LintFront.Document.Fault
import LintFront.Files.Tree

/-!
# What can go wrong in a run

* `RunError`: the causes, each with what it is about.
* `RunError.message`: the wording of a cause.
* `RunError.remedy`: what the user can do about it.
* `RunError.render`: both, as they are shown.
-/

namespace LintFront

/-- A configuration that cannot be found, or that makes no sense. -/
inductive ConfigProblem
  | fileNotFound (path : String)
  /-- A file comes again among the presets below it. -/
  | circularInherit (path : String)
  | inheritNotFound (path : String)
  | invalidRoot (path : String) (cause : IoFault)
  | invalidProject (path : String) (cause : IoFault)
  /-- A preset that a plugin publishes is no configuration. -/
  | invalidPreset (name : String) (cause : ReadFault)
  | other (message : String)
  deriving DecidableEq, Repr, Inhabited

def ConfigProblem.message : ConfigProblem → String
  | .fileNotFound path => "Config file not found: " ++ path
  | .circularInherit path => "Circular inherit: " ++ path ++ " is inherited by itself"
  | .inheritNotFound path => "Inherited config not found: " ++ path
  | .invalidRoot path cause => "Invalid project root '" ++ path ++ "': " ++ cause.message
  | .invalidProject path cause => "Invalid project directory '" ++ path ++ "': " ++ cause.message
  | .invalidPreset name cause =>
    "Preset '" ++ name ++ "' published by a plugin is invalid: " ++ cause.message
  | .other message => message

/-- A file that does not hold what it should. -/
inductive ParseProblem
  | document (cause : ReadFault)
  /-- The field of a manifest is no configuration. -/
  | field (cause : ReadFault)
  /-- A module does not evaluate to a builder configuration. -/
  | builder (cause : ReadFault)
  | other (message : String)
  deriving DecidableEq, Repr, Inhabited

def ParseProblem.message : ParseProblem → String
  | .document cause => cause.message
  | .field cause => "invalid \"viola\" field: " ++ cause.message
  | .builder cause => "not a builder configuration: " ++ cause.message
  | .other message => message

/-- A plugin that is of no use. -/
inductive PluginProblem
  | noLinters
  | other (message : String)
  deriving DecidableEq, Repr, Inhabited

def PluginProblem.message : PluginProblem → String
  | .noLinters => "module exports no linters"
  | .other message => message

/-- How a program ended. -/
inductive ExitStatus
  | code (n : Int)
  | killed
  deriving DecidableEq, Repr, Inhabited

def ExitStatus.describe : ExitStatus → String
  | .code n => "exit status: " ++ toString n
  | .killed => "signal: 9 (SIGKILL)"

/-- An engine that does not do its work. -/
inductive EngineProblem
  | notStarted (program : String) (cause : IoFault)
  | failed (program : String) (status : ExitStatus)
  | invalidReply (program : String) (cause : ReadFault)
  | other (message : String)
  deriving DecidableEq, Repr, Inhabited

def EngineProblem.message : EngineProblem → String
  | .notStarted program cause => "failed to start '" ++ program ++ "': " ++ cause.message
  | .failed program status => "'" ++ program ++ "' exited with " ++ status.describe
  | .invalidReply program cause => "invalid reply from '" ++ program ++ "': " ++ cause.message
  | .other message => message

/-- A bridge that cannot be crossed. -/
inductive BridgeProblem
  | noUrl (path : String)
  /-- The script cannot be made at the path. -/
  | notCreated (cause : IoFault) (path : String)
  | notWritten (cause : IoFault)
  | notRun (runtime : String) (cause : IoFault)
  | other (message : String)
  deriving DecidableEq, Repr, Inhabited

def BridgeProblem.message : BridgeProblem → String
  | .noUrl path => "cannot build a file URL for " ++ path
  | .notCreated cause path =>
    "cannot create bridge script: " ++ cause.message ++ " at path " ++ quoted path
  | .notWritten cause => "cannot write bridge script: " ++ cause.message
  | .notRun runtime cause => "failed to run '" ++ runtime ++ "': " ++ cause.message
  | .other message => message

/-- What can go wrong in a run. -/
inductive RunError
  | config (problem : ConfigProblem)
  | parse (path : String) (problem : ParseProblem)
  | noPlugins
  | plugin (specifier : String) (problem : PluginProblem)
  | engine (problem : EngineProblem)
  | bridge (problem : BridgeProblem)
  | io (path : String) (cause : IoFault)
  deriving DecidableEq, Repr, Inhabited

/-- The kinds of errors that callers tell apart. -/
inductive ErrorKind
  | config
  | noPlugins
  | plugin
  | engine
  | bridge
  | io
  deriving DecidableEq, Repr, Inhabited

/-- A configuration to start from. -/
def exampleConfig : String :=
  "\x7b\n  \"plugins\": [\"jsr:@hiisi/viola-default-lints\"],\n  \"include\": [\"src\"]\n\x7d"

namespace RunError

def kind : RunError → ErrorKind
  | .config _ => .config
  | .parse .. => .config
  | .noPlugins => .noPlugins
  | .plugin .. => .plugin
  | .engine _ => .engine
  | .bridge _ => .bridge
  | .io .. => .io

def message : RunError → String
  | .config problem => "Configuration error: " ++ problem.message
  | .parse path problem => "Failed to parse config '" ++ path ++ "': " ++ problem.message
  | .noPlugins => "No plugins configured."
  | .plugin specifier problem => "Plugin error in '" ++ specifier ++ "': " ++ problem.message
  | .engine problem => "Engine error: " ++ problem.message
  | .bridge problem => "Bridge error: " ++ problem.message
  | .io path cause => "IO error for path '" ++ path ++ "': " ++ cause.message

/-- The error behind this one, if there is one. -/
def cause? : RunError → Option String
  | .io _ cause => some cause.message
  | _ => none

/-- What the user can do about an error. -/
def remedy : RunError → String
  | .noPlugins =>
    "Add plugins to viola.json (or the \"viola\" field of deno.json):\n\n" ++ exampleConfig ++
    "\n\nor pass them on the command line: viola --plugins jsr:@hiisi/viola-default-lints"
  | .parse path _ =>
    "Fix the syntax of " ++ path ++
    " (comments and trailing commas are allowed), for example:\n\n" ++ exampleConfig
  | .config _ =>
    "Check the --config path and VIOLA_CONFIG, or create viola.json in the project root:\n\n" ++
    exampleConfig
  | .plugin specifier _ =>
    "Make sure '" ++ specifier ++
    "' is installed and exports linters (directly, as an array, under `linters` or " ++
    "as the default export)."
  | .engine _ =>
    "Check that the viola engine is installed (set VIOLA_ENGINE to its executable) and " ++
    "rerun with --verbose for details."
  | .bridge _ =>
    "Make sure the host runtime is installed (set VIOLA_RUNTIME), or run viola from a local " ++
    "installation."
  | .io path _ => "Check that " ++ path ++ " exists and is readable."

/-- An error and its remedy. The error behind it is shown in a verbose run only. -/
def render (e : RunError) (verbose : Bool) : String :=
  let cause :=
    match verbose, e.cause? with
    | true, some cause => "  Caused by: " ++ cause ++ "\n"
    | _, _ => ""
  "Error: " ++ e.message ++ "\n" ++ cause ++ "\n" ++ e.remedy ++ "\n"

end RunError

/-- An outcome in which the failure of a plugin counts as no result. -/
def skipFailedPlugin {α : Type} : Except RunError α → Except RunError (Option α)
  | .ok a => .ok (some a)
  | .error e => if e.kind = .plugin then .ok none else .error e

end LintFront
