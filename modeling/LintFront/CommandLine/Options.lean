import LintFront.Module.Script

/-!
# The options of the command line

* `CliOption`: an option, by its names and what it does.
* `cliOptions`: all of them, in the order in which they are explained.
* `optionByLetter?`, `optionByName?`: an option by one of its names.
-/

namespace LintFront

/-- Options that are given or not. -/
inductive Flag
  | reportOnly
  | verbose
  | list
  | parallel
  | noColour
  deriving DecidableEq, Repr, Inhabited

/-- Options that take a path, once at most. -/
inductive PathOption
  | project
  | config
  | preloaded
  deriving DecidableEq, Repr, Inhabited

/-- Options that take texts with commas between them, as often as one likes. -/
inductive ListOption
  | only
  | skip
  | paths
  | plugins
  deriving DecidableEq, Repr, Inhabited

/-- Options that take a value. -/
inductive Valued
  | path (option : PathOption)
  | list (option : ListOption)
  deriving DecidableEq, Repr, Inhabited

/-- What an option does. -/
inductive Meaning
  | flag (flag : Flag)
  | valued (option : Valued)
  | help
  | version
  deriving DecidableEq, Repr, Inhabited

/-- An option of the command line. -/
structure CliOption where
  letter : Option Char
  name : String
  meaning : Meaning
  /-- What its value is called. -/
  placeholder : Option String := none
  /-- What is said of it; nothing is said of a hidden option. -/
  help : Option String
  deriving DecidableEq, Repr, Inhabited

/-- The name of an option without the dashes before it. -/
def undashed (option : String) : String := String.ofList (option.toList.dropWhile (· == '-'))

/-- The options of the command line. -/
def cliOptions : List CliOption := [
  ⟨some 'r', "report-only", .flag .reportOnly, none, "Report issues without failing the run"⟩,
  ⟨some 'v', "verbose", .flag .verbose, none, "Print config sources and debug output"⟩,
  ⟨some 'l', "list", .flag .list, none, "List registered linters and exit"⟩,
  ⟨none, "parallel", .flag .parallel, none, "Let the engine run linters in parallel"⟩,
  ⟨none, "only", .valued (.list .only), "IDS", "Only run these linters (comma-separated)"⟩,
  ⟨none, "skip", .valued (.list .skip), "IDS", "Skip these linters (comma-separated)"⟩,
  ⟨some 'i', "include", .valued (.list .paths), "PATHS", "Paths to lint (comma-separated)"⟩,
  ⟨some 'p', "project", .valued (.path .project), "PROJECT", "Project root [default: .]"⟩,
  ⟨some 'c', "config", .valued (.path .config), "CONFIG", "Path to configuration file"⟩,
  ⟨none, "plugins", .valued (.list .plugins), "SPECIFIERS",
    "Plugin specifiers, replacing the configured ones (comma-separated)"⟩,
  ⟨none, "no-color", .flag .noColour, none, "Disable colored output"⟩,
  ⟨none, undashed preloadedFlag, .valued (.path .preloaded), "PRELOADED_MODULE", none⟩,
  ⟨some 'h', "help", .help, none, "Print help"⟩,
  ⟨some 'V', "version", .version, none, "Print version"⟩]

/-- The option with a letter. -/
def optionByLetter? (c : Char) : Option CliOption := cliOptions.find? (·.letter == some c)

/-- The option with a name. -/
def optionByName? (name : String) : Option CliOption := cliOptions.find? (·.name == name)

end LintFront
