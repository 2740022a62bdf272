import LintFront.CommandLine.Style
import LintFront.Run.Plain

/-!
# Output on a terminal

Lists and results go to the output, everything else to the error output.

* `Printed`: the texts on the two outputs.
* `Event.onTerminal`: an event as it is shown.
-/

namespace LintFront

/-- The texts on the output and on the error output. -/
structure Printed where
  out : String := ""
  err : String := ""
  deriving DecidableEq, Repr, Inhabited

/-- One text after another, on both outputs. -/
def Printed.append (a b : Printed) : Printed := ⟨a.out ++ b.out, a.err ++ b.err⟩

/-- How many kinds of issues a linter declares, if any. -/
def kindsNote (colours : Bool) : Nat → String
  | 0 => ""
  | 1 => paint colours .dimmed " 1 issue kind"
  | n => paint colours .dimmed (" " ++ toString n ++ " issue kinds")

/-- A linter on a line of its own. -/
def LinterDescriptor.terminalLine (colours : Bool) (l : LinterDescriptor) : String :=
  let description :=
    match l.description with
    | some text => "  " ++ text
    | none => ""
  "  " ++ paint colours .identifier l.id ++ description ++ kindsNote colours l.catalogSize ++ "\n"

/-- A source on a line of its own. -/
def ConfigSource.terminalLine (colours : Bool) (s : ConfigSource) : String :=
  let scope :=
    match s.scope with
    | some pattern => " [scope " ++ pattern ++ "]"
    | none => ""
  paint colours .dimmed "config:" ++ " " ++ s.path ++ " " ++
  paint colours .dimmed ("(" ++ s.kind.label ++ ")") ++ scope ++ "\n"

/-- An error with its remedy. The error behind it is shown in a verbose run only. -/
def RunError.onTerminal (colours : Bool) (e : RunError) (verbose : Bool) : String :=
  let cause :=
    match verbose, e.cause? with
    | true, some cause => "  " ++ paint colours .dimmed "Caused by:" ++ " " ++ cause ++ "\n"
    | _, _ => ""
  paint colours .failure "Error:" ++ " " ++ e.message ++ "\n" ++ cause ++ "\n" ++ e.remedy ++ "\n"

/-- An event as it is shown on a terminal. -/
def Event.onTerminal (colours : Bool) : Event → Printed
  | .sources [] =>
    { err := paint colours .dimmed "config:" ++ " no configuration files found\n" }
  | .sources consulted =>
    { err := String.join (consulted.map (ConfigSource.terminalLine colours)) }
  | .pluginFailure failure =>
    { err := paint colours .warning "warning:" ++ " " ++ failure.message ++ "\n" }
  | .linters registry =>
    { out :=
        paint colours .bold "Registered linters" ++ " (" ++ toString registry.size ++ ")\n" ++
        String.join (registry.all.map (LinterDescriptor.terminalLine colours)) }
  | .noLinters =>
    { out := paint colours .caution noLintersNotice ++ "\n\n" ++ RunError.noPlugins.remedy ++ "\n" }
  | .results text => { out := text }
  | .failed error verbose => { err := error.onTerminal colours verbose }

/-- What the user is told in a run, as it is shown on a terminal. -/
def terminalOutput (colours : Bool) (steps : List Step) : Printed :=
  steps.foldl (fun printed step =>
    match step with
    | .tell event => printed.append (event.onTerminal colours)
    | _ => printed) {}

end LintFront
