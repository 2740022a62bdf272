import LintFront.CommandLine.Options
import LintFront.Run.Basic

/-!
# Reading a command line

Words are read from left to right. An option that takes a value takes the rest of its word, or else
the next word, unless that looks like an option itself.

* `UsageError`: what can be wrong with a command line.
* `Word.ofText`: the shape of a word.
* `Given`: the options given so far.
* `parseWords`: the options given by words, or why reading stops.
* `Given.runArgs`: what a run is asked to do.
-/

namespace LintFront

/-- What can be wrong with a command line. -/
inductive UsageError
  | unknownOption (option : String)
  /-- A word that is no option, nor the value of one. -/
  | unexpectedWord (word : String)
  | missingValue (option : String)
  | emptyValue (option : String)
  /-- A value for an option that takes none. -/
  | unexpectedValue (option : String)
  /-- An option that may come once comes again. -/
  | repeated (option : String)
  deriving DecidableEq, Repr, Inhabited

def UsageError.message : UsageError → String
  | .unknownOption option => "unknown option '" ++ option ++ "'"
  | .unexpectedWord word => "unexpected argument '" ++ word ++ "'"
  | .missingValue option => "option '" ++ option ++ "' needs a value"
  | .emptyValue option => "the value of option '" ++ option ++ "' is empty"
  | .unexpectedValue option => "option '" ++ option ++ "' takes no value"
  | .repeated option => "option '" ++ option ++ "' is given more than once"

/-- Why the reading of a command line stops before its end. -/
inductive Stop
  | help
  | version
  | usage (error : UsageError)
  deriving DecidableEq, Repr, Inhabited

/-! ## Words -/

/-- The shapes of a word. -/
inductive Word
  /-- Two dashes: no options follow. -/
  | separator
  /-- An option by its name, with the value after an equals sign. -/
  | long (name : String) (value : Option String)
  /-- Options by their letters. -/
  | short (letters : List Char)
  /-- Anything else. -/
  | plain
  deriving DecidableEq, Repr, Inhabited

/-- The text up to the first equals sign, and the text after it. -/
def splitValue : List Char → List Char × Option (List Char)
  | [] => ([], none)
  | c :: rest =>
    if c = '=' then ([], some rest)
    else
      let (name, value) := splitValue rest
      (c :: name, value)

/-- The shape of a word. -/
def Word.ofText (text : String) : Word :=
  match text.toList with
  | ['-', '-'] => .separator
  | '-' :: '-' :: rest =>
    let (name, value) := splitValue rest
    .long (String.ofList name) (value.map String.ofList)
  | ['-'] => .plain
  | '-' :: letters => .short letters
  | _ => .plain

/-! ## Options given so far -/

/-- The options given so far, in order. -/
structure Given where
  flags : List Flag := []
  paths : List (PathOption × String) := []
  lists : List (ListOption × String) := []
  deriving DecidableEq, Repr, Inhabited

namespace Given

/-- One more flag. -/
def addFlag (g : Given) (option : CliOption) (flag : Flag) : Except Stop Given :=
  if g.flags.contains flag then .error (.usage (.repeated option.name))
  else .ok { g with flags := g.flags ++ [flag] }

/-- One more option with its value. -/
def addValue (g : Given) (option : CliOption) (valued : Valued) (value : String) :
    Except Stop Given :=
  match valued with
  | .list l => .ok { g with lists := g.lists ++ [(l, value)] }
  | .path p =>
    if value = "" then .error (.usage (.emptyValue option.name))
    else if (g.paths.lookup p).isSome then .error (.usage (.repeated option.name))
    else .ok { g with paths := g.paths ++ [(p, value)] }

/-- The options that a cluster of letters gives, and one that still needs a value. -/
def addLetters (g : Given) : List Char → Except Stop (Given × Option (CliOption × Valued))
  | [] => .ok (g, none)
  | c :: rest =>
    match optionByLetter? c with
    | none => .error (.usage (.unknownOption (String.ofList ['-', c])))
    | some option =>
      match option.meaning with
      | .help => .error .help
      | .version => .error .version
      | .flag flag =>
        match g.addFlag option flag with
        | .error stop => .error stop
        | .ok g => g.addLetters rest
      | .valued valued =>
        match rest with
        | [] => .ok (g, some (option, valued))
        | '=' :: value => (g.addValue option valued (String.ofList value)).map (·, none)
        | value => (g.addValue option valued (String.ofList value)).map (·, none)

/-- What an option with a name gives, and whether it still needs a value. -/
def addLong (g : Given) (name : String) (value : Option String) :
    Except Stop (Given × Option (CliOption × Valued)) :=
  match optionByName? name with
  | none => .error (.usage (.unknownOption ("--" ++ name)))
  | some option =>
    match option.meaning, value with
    | .valued valued, some value => (g.addValue option valued value).map (·, none)
    | .valued valued, none => .ok (g, some (option, valued))
    | _, some _ => .error (.usage (.unexpectedValue name))
    | .flag flag, none => (g.addFlag option flag).map (·, none)
    | .help, none => .error .help
    | .version, none => .error .version

/-- What a word gives, and an option that still needs a value. -/
def addWord (g : Given) (text : String) : Except Stop (Given × Option (CliOption × Valued)) :=
  match Word.ofText text with
  | .long name value => g.addLong name value
  | .short letters => g.addLetters letters
  | .separator | .plain => .error (.usage (.unexpectedWord text))

/-- The options given, if no words are left. -/
def closed (g : Given) : List String → Except Stop Given
  | [] => .ok g
  | word :: _ => .error (.usage (.unexpectedWord word))

end Given

/-- The options given by words, after those given before. -/
def parseWords (g : Given) : List String → Except Stop Given
  | [] => .ok g
  | text :: rest =>
    match Word.ofText text with
    | .separator => g.closed rest
    | _ =>
      match g.addWord text with
      | .error stop => .error stop
      | .ok (g, none) => parseWords g rest
      | .ok (g, some (option, valued)) =>
        match rest with
        | [] => .error (.usage (.missingValue option.name))
        | value :: rest =>
          match Word.ofText value with
          | .plain =>
            match g.addValue option valued value with
            | .error stop => .error stop
            | .ok g => parseWords g rest
          | _ => .error (.usage (.missingValue option.name))

/-! ## What a run is asked to do -/

namespace Given

/-- Whether a flag is given. -/
def has (g : Given) (flag : Flag) : Bool := g.flags.contains flag

/-- The path of an option. -/
def path? (g : Given) (option : PathOption) : Option String := g.paths.lookup option

/-- The texts of an option, from all its places, if it is given at all. -/
def list? (g : Given) (option : ListOption) : Option (List String) :=
  match g.lists.filter (·.1 == option) with
  | [] => none
  | found => some (found.flatMap fun entry => commaParts entry.2)

/-- What a run is asked to do. -/
def runArgs (g : Given) : RunArgs where
  project := (g.path? .project).getD "."
  config := g.path? .config
  included := g.list? .paths
  plugins := g.list? .plugins
  only := g.list? .only
  skip := g.list? .skip
  reportOnly := g.has .reportOnly
  verbose := g.has .verbose
  list := g.has .list
  parallel := g.has .parallel
  preloaded := g.path? .preloaded

end Given

/-- The options that a command line gives. -/
def parseCommandLine (words : List String) : Except Stop Given := parseWords {} words

end LintFront
