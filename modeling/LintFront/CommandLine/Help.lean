import LintFront.CommandLine.Options
import LintFront.CommandLine.Style

/-!
# What is said about the command line

* `helpText`: the explanation of the program and its options.
* `versionText`: its name and version.
-/

namespace LintFront

/-- The name of the program. -/
def programName : String := "viola"

/-- The version of the program. -/
def programVersion : String := "0.1.0"

/-- What the program is. -/
def programSummary : String := "Viola: convention linter for your codebase"

def versionText : String := programName ++ " " ++ programVersion ++ "\n"

/-- What is said after the options. -/
def closingWords : String :=
  "Configuration is read from --config, VIOLA_CONFIG, viola.json/.violarc.json files\n" ++
  "or the \"viola\" field of deno.json/package.json.\n" ++
  "\n" ++
  "Examples:\n" ++
  "  viola                                   # Lint src, packages and app\n" ++
  "  viola -i lib,tools                      # Lint other directories\n" ++
  "  viola --plugins jsr:@hiisi/viola-default-lints\n" ++
  "  viola --list                            # Show registered linters\n" ++
  "  viola -r                                # Report issues but always exit 0\n"

namespace CliOption

/-- The names of an option as they are shown; without a letter its place stays empty. -/
def spelling (colours : Bool) (o : CliOption) : String :=
  let letter :=
    match o.letter with
    | some c => paint colours .bold (String.ofList ['-', c]) ++ ", "
    | none => "    "
  let value :=
    match o.placeholder with
    | some name => " <" ++ name ++ ">"
    | none => ""
  letter ++ paint colours .bold ("--" ++ o.name) ++ value

/-- How wide the names of an option are. -/
def width (o : CliOption) : Nat := (o.spelling false).length

/-- The line for an option, with the names in a column of the given width. -/
def helpLine (colours : Bool) (column : Nat) (o : CliOption) : String :=
  match o.help with
  | some help =>
    "  " ++ o.spelling colours ++ String.ofList (List.replicate (column - o.width) ' ') ++ "  " ++
    help ++ "\n"
  | none => ""

end CliOption

/-- How wide the column of names must be. -/
def helpColumn : Nat :=
  ((cliOptions.filter (·.help.isSome)).map CliOption.width).foldl max 0

/-- The explanation of the program and its options. -/
def helpText (colours : Bool) : String :=
  programSummary ++ "\n\n" ++
  paint colours .heading "Usage:" ++ " " ++ paint colours .bold programName ++ " [OPTIONS]\n\n" ++
  paint colours .heading "Options:" ++ "\n" ++
  String.join (cliOptions.map (CliOption.helpLine colours helpColumn)) ++ "\n" ++ closingWords

end LintFront
