import LintFront.CommandLine.Help
import LintFront.CommandLine.Parse
import LintFront.CommandLine.Terminal
import LintFront.Module.Bridge

/-!
# A session

A session is one call of the program: it reads its command line and its environment, and carries
out a run.

* `Surroundings`: what a session meets.
* `Session`: how it ends.
* `Surroundings.session`: the session for a command line.
-/

namespace LintFront

/-- What a session meets. -/
structure Surroundings where
  disk : Disk
  /-- The variables of the environment. -/
  environment : Table String
  /-- The program itself. -/
  program : String
  /-- What the program of a name does with a request. -/
  startEngine : String → Request → Except IoFault Finished
  scriptHost : ScriptHost
  /-- The entries of the directory of scripts. -/
  scripts : Table String := []

/-- How a session ends. -/
structure Session where
  code : UInt8
  printed : Printed
  /-- The steps of its run, if there is one. -/
  steps : List Step := []
  deriving Inhabited

namespace Surroundings

/-- Whether a run shows colours: the environment must ask for them with anything but a zero, and
naming `NO_COLOR` is enough to forbid them. -/
def runColours (s : Surroundings) : Bool :=
  (s.environment.find? "CLICOLOR_FORCE").any (· != "0") && !s.environment.has "NO_COLOR"

/-- Whether a variable of the environment is set to some text. -/
def sets (s : Surroundings) (name : String) : Bool := (s.environment.find? name).any (· != "")

/-- Whether help shows colours: any text asks for them or forbids them, and an empty one is none. -/
def helpColours (s : Surroundings) : Bool := s.sets "CLICOLOR_FORCE" && !s.sets "NO_COLOR"

/-- Where the program has been loaded from. -/
def origin (s : Surroundings) : Origin :=
  .ofMainModule (s.environment.find? "VIOLA_MAIN_MODULE")

/-- The program that is asked as the engine. -/
def engineProgram (s : Surroundings) : EngineProgram :=
  let name := namedOr (s.environment.find? "VIOLA_ENGINE") defaultEngine
  ⟨name, s.startEngine name⟩

/-- The bridge that comes back to the same command line. -/
def bridge (s : Surroundings) (arguments : List String) : Bridge where
  runtime := namedOr (s.environment.find? "VIOLA_RUNTIME") defaultRuntime
  program := s.program
  arguments := arguments

/-- How configurations are resolved. -/
def resolver (s : Surroundings) : Resolver where
  environment := s.environment.find? "VIOLA_CONFIG"
  presets := installedPreset s.disk

/-- What a run works with. -/
def orchestrator (s : Surroundings) (arguments : List String) : Orchestrator where
  engine := s.engineProgram.engine
  resolver := s.resolver
  origin := s.origin
  evaluateHere := s.engineProgram.engine.evaluate
  bridge := (s.bridge arguments).strategy s.scriptHost s.scripts

/-- The session for a command line. -/
def session (s : Surroundings) (arguments : List String) : Session :=
  match parseCommandLine arguments with
  | .error .help => ⟨0, { out := helpText s.helpColours }, []⟩
  | .error .version => ⟨0, { out := versionText }, []⟩
  | .error (.usage error) => ⟨1, { err := "error: " ++ error.message ++ "\n" }, []⟩
  | .ok given =>
    let (code, steps) := (s.orchestrator arguments).run s.disk given.runArgs
    ⟨code, terminalOutput (s.runColours && !given.has .noColour) steps, steps⟩

end Surroundings

end LintFront
