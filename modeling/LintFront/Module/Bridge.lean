import LintFront.Engine.Exchange
import LintFront.Module.Script
import LintFront.Module.Strategy

/-!
# Crossing the bridge

The bridge script is written to a file of its own, run by the host runtime, and taken away again,
whatever happens.

* `Bridge`: what is run, and with which arguments.
* `ScriptHost`: how the system behaves.
* `Bridge.cross`: the course of a crossing, with the directory of scripts before, during and after
  the run.
-/

namespace LintFront

/-- The host runtime that is started if none is named. -/
def defaultRuntime : String := "deno"

/-- What the host runtime gets before the script: leave to do what a local program may do, and no
network. -/
def defaultRuntimeArguments : List String :=
  ["run", "--allow-read", "--allow-write", "--allow-env", "--allow-run"]

/-- What is run to evaluate a module elsewhere. -/
structure Bridge where
  /-- The host runtime. -/
  runtime : String
  /-- Its arguments before the script. -/
  runtimeArguments : List String := defaultRuntimeArguments
  /-- The program that the script runs again. -/
  program : String
  /-- The arguments that the program had. -/
  arguments : List String
  deriving DecidableEq, Repr, Inhabited

/-- How the system behaves towards a bridge. -/
structure ScriptHost where
  /-- The directory of scripts. -/
  directory : String
  /-- Random texts for the name of a script, in the order in which they are tried. -/
  tokens : List String
  /-- Why no file can be made in the directory, if so. -/
  creating : Option IoFault := none
  /-- Why a file cannot be written, if so. -/
  writing : Option IoFault := none
  /-- What the host runtime does with the script of a name in the directory of scripts: how it ends,
  and what it leaves in the directory; or why it cannot be started. -/
  execute : Bridge → String → Table String → Except IoFault (ExitStatus × Table String)

/-- The course of a crossing. -/
structure Crossing where
  /-- The directory of scripts while the host runtime runs, if it gets so far. -/
  during : Option (Table String)
  /-- The directory of scripts in the end. -/
  after : Table String
  outcome : Except RunError ModuleOutcome
  deriving Inhabited

/-- The code that a run ends with when another program has ended so. -/
def ExitStatus.delegatedCode : ExitStatus → UInt8
  | .code n => if 0 ≤ n ∧ n < 256 then n.toNat.toUInt8 else 1
  | .killed => 1

namespace ScriptHost

/-- The name of a script. -/
def scriptName (token : String) : String := "viola-bridge-" ++ token ++ ".mjs"

/-- The first name that is free in a directory, or why no file can be made there. -/
def freshName (host : ScriptHost) (entries : Table String) : List String → Except RunError String
  | [] =>
    .error (.bridge (.notCreated (.other "too many temporary files exist") host.directory))
  | token :: rest =>
    let name := scriptName token
    match host.creating with
    | some cause => .error (.bridge (.notCreated cause (joinPath host.directory name)))
    | none => if entries.has name then host.freshName entries rest else .ok name

end ScriptHost

namespace Bridge

/-- The script for the module at a path. -/
def script (b : Bridge) (path : String) : Except RunError String :=
  match fileUrl? path with
  | some url => .ok (BridgeScript.text ⟨url, b.program, b.arguments⟩)
  | none => .error (.bridge (.noUrl path))

/-- The crossing for a module, starting from the entries of the directory of scripts. A script that
has been made is taken away in the end. -/
def cross (b : Bridge) (host : ScriptHost) (entries : Table String) (path : String) : Crossing :=
  match b.script path with
  | .error e => ⟨none, entries, .error e⟩
  | .ok text =>
    match host.freshName entries host.tokens with
    | .error e => ⟨none, entries, .error e⟩
    | .ok name =>
      match host.writing with
      | some cause => ⟨none, (entries.put name "").erase name, .error (.bridge (.notWritten cause))⟩
      | none =>
        let written := entries.put name text
        match host.execute b name written with
        | .error cause => ⟨none, written.erase name, .error (.bridge (.notRun b.runtime cause))⟩
        | .ok (status, left) =>
          ⟨some written, left.erase name, .ok (.delegated status.delegatedCode)⟩

/-- The bridge as a way to evaluate modules. -/
def strategy (b : Bridge) (host : ScriptHost) (entries : Table String) : ModuleStrategy :=
  fun path => (b.cross host entries path).outcome

end Bridge

end LintFront
