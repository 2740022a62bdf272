import LintFront.Config.Basic

/-!
# Grammars

A grammar is a module that parses the files of a language, known by their extensions.

* `GrammarRegistry`: grammars by language. A language keeps its place when its grammar is replaced.
* `GrammarRegistry.forExtension`: the first grammar for an extension.
-/

namespace LintFront

/-- A parser of a language. -/
structure Grammar where
  /-- The specifier of the module. -/
  moduleFile : String
  /-- Extensions of the files in the language, with or without a dot. -/
  extensions : List String := []
  deriving DecidableEq, Repr, Inhabited

namespace Grammar

def fields : List (Field Grammar) := [
  .demanded "module" (readText "a string") fun g v => { g with moduleFile := v },
  .defaulted "extensions" readTexts fun g v => { g with extensions := v }]

def read : Reader Grammar := readRecord "struct Grammar" fields default

def toValue (g : Grammar) : Value :=
  .object [("module", .text g.moduleFile), ("extensions", textsValue g.extensions)]

end Grammar

/-- An extension without the dots before it. -/
def undotted (extension : String) : String :=
  String.ofList (extension.toList.dropWhile (· == '.'))

/-- Whether a grammar is for files with an extension. -/
def Grammar.handles (g : Grammar) (extension : String) : Bool :=
  g.extensions.any fun e => undotted e == undotted extension

/-- Grammars by language. -/
structure GrammarRegistry where
  grammars : Table Grammar := []
  deriving DecidableEq, Repr, Inhabited

namespace GrammarRegistry

/-- A registry is written as its table. -/
def read : Reader GrammarRegistry := fun dialect t => do
  return ⟨← readTable Grammar.read dialect t⟩

def toValue (r : GrammarRegistry) : Value := tableValue Grammar.toValue r.grammars

/-- The registry with a grammar for a language, whatever it had before. -/
def insert (r : GrammarRegistry) (language : String) (g : Grammar) : GrammarRegistry :=
  ⟨r.grammars.put language g⟩

def find? (r : GrammarRegistry) (language : String) : Option Grammar := r.grammars.find? language

/-- The first language with a grammar for an extension. -/
def forExtension (r : GrammarRegistry) (extension : String) : Option (String × Grammar) :=
  List.find? (fun entry => entry.2.handles extension) r.grammars

def size (r : GrammarRegistry) : Nat := r.grammars.length

def isEmpty (r : GrammarRegistry) : Bool := r.grammars.isEmpty

end GrammarRegistry

end LintFront
