import LintFront.Document.Printer
import LintFront.Module.FileUrl

/-!
# The bridge script

A script imports a module where that is allowed, writes what it evaluates to into a file, and runs
the program again with the arguments it had and the name of that file.

* `preloadedFlag`: the option that takes the file.
* `bridgeScript`: the text of the script. Everything inserted is a literal of its own.
-/

namespace LintFront

/-- The option that takes a file with the value of a module. -/
def preloadedFlag : String := "--preloaded-module"

/-- What a script is about. -/
structure BridgeScript where
  /-- The URL of the module. -/
  url : String
  /-- The program that is run again. -/
  program : String
  /-- Its arguments. -/
  arguments : List String
  deriving DecidableEq, Repr, Inhabited

namespace BridgeScript

/-- A text as a literal. -/
def literal (text : String) : List Char := printText text

/-- Texts as a literal. -/
def listLiteral (texts : List String) : List Char := printParts '[' ']' (texts.map printText)

/-- The fixed parts of a script, with the three insertions between them. -/
def opening : String := "const mod = await import("

def afterUrl : String :=
  ");\n" ++
  "const out = await Deno.makeTempFile(" ++
  "\x7b prefix: \"viola-module-\", suffix: \".json\" \x7d);\n" ++
  "try \x7b\n" ++
  "  await Deno.writeTextFile(out, JSON.stringify(mod));\n" ++
  "  const child = new Deno.Command("

def afterProgram : String :=
  ", \x7b\n" ++
  "    args: [..."

def afterArguments : String :=
  ", \"" ++ preloadedFlag ++ "\", out],\n" ++
  "    stdin: \"inherit\",\n" ++
  "    stdout: \"inherit\",\n" ++
  "    stderr: \"inherit\",\n" ++
  "  \x7d);\n" ++
  "  const \x7b code \x7d = await child.output();\n" ++
  "  Deno.exitCode = code;\n" ++
  "\x7d finally \x7b\n" ++
  "  await Deno.remove(out).catch(() => \x7b\x7d);\n" ++
  "\x7d\n"

/-- The text of a script. -/
def text (s : BridgeScript) : String :=
  String.ofList (opening.toList ++ literal s.url ++ afterUrl.toList ++ literal s.program ++
    afterProgram.toList ++ listLiteral s.arguments ++ afterArguments.toList)

end BridgeScript

end LintFront
