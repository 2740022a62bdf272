import LintFront.Document.Value
import LintFront.Text.Hex

/-!
# Values as strict text

* `printText`: a text between double quotes, with every control character escaped.
* `Value.print`: a value in the strict notation, without blanks.
-/

namespace LintFront

/-- The characters that stand for one character between double quotes. -/
def printChar (c : Char) : List Char :=
  if c = '"' then ['\\', '"']
  else if c = '\\' then ['\\', '\\']
  else if c = '\n' then ['\\', 'n']
  else if c = '\r' then ['\\', 'r']
  else if c = '\t' then ['\\', 't']
  else if c = '\x08' then ['\\', 'b']
  else if c = '\x0c' then ['\\', 'f']
  else if c.toNat < 0x20 then '\\' :: 'u' :: hexPadded 4 c.toNat
  else [c]

/-- A text between double quotes. -/
def printText (text : String) : List Char := '"' :: text.toList.flatMap printChar ++ ['"']

/-- Parts between two brackets, with a comma between every two of them. -/
def printParts (opening closing : Char) (parts : List (List Char)) : List Char :=
  opening :: (parts.intersperse [',']).flatten ++ [closing]

def printNumber : Number → List Char
  | .integer n => (toString n).toList
  | .double x => x.scientific.toList

namespace Value

mutual

/-- The characters of a value in the strict notation. -/
def printChars : Value → List Char
  | .null => "null".toList
  | .bool b => (if b then "true" else "false").toList
  | .number n => printNumber n
  | .text s => printText s
  | .list items => printParts '[' ']' (printItems items)
  | .object members => printParts '\x7b' '\x7d' (printMembers members)

def printItems : List Value → List (List Char)
  | [] => []
  | v :: rest => printChars v :: printItems rest

def printMembers : List (String × Value) → List (List Char)
  | [] => []
  | (name, v) :: rest => (printText name ++ ':' :: printChars v) :: printMembers rest

end

/-- A value in the strict notation. -/
def print (v : Value) : String := String.ofList v.printChars

end Value

end LintFront
