import LintFront.Engine.Basic

/-!
# An engine that is a program

A program is started for every question. It gets a request as a document and replies with another
one.

* `Request`: the requests. `Request.toValue`: a request as a document.
* `EngineProgram`: a program, known by what it does with a request.
* `EngineProgram.engine`: the engine that asks the program.
-/

namespace LintFront

/-- What a program is asked. -/
inductive Request
  | discoverPlugins (specifiers : List String) (verbose : Bool)
  | loadModule (path : String)
  | run (options : RunOptions) (linters : LinterRegistry)
  deriving Repr, Inhabited

namespace Request

/-- The word for what is asked. -/
def command : Request → String
  | .discoverPlugins .. => "discover-plugins"
  | .loadModule _ => "load-module"
  | .run .. => "run"

def arguments : Request → List (String × Value)
  | .discoverPlugins specifiers verbose =>
    [("specifiers", textsValue specifiers), ("verbose", .bool verbose)]
  | .loadModule path => [("path", .text path)]
  | .run options linters => [("options", options.toValue), ("linters", linters.toValue)]

/-- A request as a document. -/
def toValue (r : Request) : Value := .object (("command", .text r.command) :: r.arguments)

end Request

/-- What is left of a program that has run. -/
structure Finished where
  output : List Glyph
  status : ExitStatus
  deriving Repr, Inhabited

/-- A program, known by what it does with a request. -/
structure EngineProgram where
  name : String
  /-- The outcome of a request, or why the program cannot be started. -/
  execute : Request → Except IoFault Finished

/-- The reply to a request to evaluate a module. -/
structure ModuleReply where
  body : Option Value := none
  error : Option String := none
  deriving BEq, Repr, Inhabited

namespace ModuleReply

def fields : List (Field ModuleReply) := [
  .omittable "module" readValue fun r v => { r with body := v },
  .omittable "error" (readText "a string") fun r v => { r with error := v }]

def read : Reader ModuleReply := readRecord "struct ModuleReply" fields {}

/-- What the module at a path builds. -/
def builder (r : ModuleReply) (path : String) : Except RunError BuilderConfig :=
  match r.error with
  | some message => .error (.parse path (.other message))
  | none =>
    match BuilderConfig.ofModule (r.body.getD .null) with
    | .ok builder => .ok builder
    | .error cause => .error (.parse path (.builder cause))

end ModuleReply

/-- The program that is started if none is named. -/
def defaultEngine : String := "viola-engine"

/-- A name from the environment, or another one if it is missing or empty. -/
def namedOr (given : Option String) (other : String) : String :=
  match given with
  | some name => if name = "" then other else name
  | none => other

namespace EngineProgram

/-- The reply of a program to a request. -/
def call {α : Type} (p : EngineProgram) (reader : Reader α) (request : Request) :
    Except RunError α :=
  match p.execute request with
  | .error cause => .error (.engine (.notStarted p.name cause))
  | .ok done =>
    if done.status = .code 0 then
      match Strict.typed reader done.output with
      | .ok reply => .ok reply
      | .error cause => .error (.engine (.invalidReply p.name cause))
    else .error (.engine (.failed p.name done.status))

/-- The engine that asks a program. -/
def engine (p : EngineProgram) : Engine where
  discover specifiers verbose := do
    Discovery.ofReply (← p.call DiscoveryReply.read (.discoverPlugins specifiers verbose))
  loadModule path := do (← p.call ModuleReply.read (.loadModule path)).builder path
  run options linters := p.call RunReport.read (.run options linters)

end EngineProgram

end LintFront
