import LintFront.Run.Basic

/-!
# Plain output

What the user is told, as text without colours.
-/

namespace LintFront

/-- What is said when there are no linters to list. -/
def noLintersNotice : String := "No plugins configured, so there are no linters to list."

/-- A linter on a line of its own. -/
def LinterDescriptor.plainLine (l : LinterDescriptor) : String :=
  "  " ++ l.id ++ "  " ++ l.description.getD "" ++ " (" ++ toString l.catalogSize ++
  " issue kind(s))\n"

/-- An event as plain text. -/
def Event.plain : Event → String
  | .sources consulted =>
    String.join (consulted.map fun s => "config: " ++ s.path ++ " (" ++ s.kind.label ++ ")\n")
  | .pluginFailure failure => "warning: " ++ failure.message ++ "\n"
  | .linters registry =>
    toString registry.size ++ " linter(s) registered:\n" ++
    String.join (registry.all.map LinterDescriptor.plainLine)
  | .noLinters => noLintersNotice ++ "\n" ++ RunError.noPlugins.remedy ++ "\n"
  | .results text => text
  | .failed error verbose => error.render verbose

/-- What the user is told in a run, as plain text. -/
def plainOutput (steps : List Step) : String :=
  String.join (steps.map fun
    | .tell event => event.plain
    | _ => "")

end LintFront
