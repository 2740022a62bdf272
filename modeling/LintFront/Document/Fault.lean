import LintFront.Number.Decimal
import LintFront.Text.Quoted

/-!
# What can be wrong with a document

A document is read in two steps: its text is taken apart by a grammar, and what it holds is fitted
to the type that is asked for. Both can fail, and the wording of a failure depends on where the
document comes from.

* `Dialect`: where a document comes from.
* `ReadFault`: the causes of a failure.
* `ReadFault.message`: their wording.
-/

namespace LintFront

/-- Where a document comes from. -/
inductive Dialect
  /-- Text in the relaxed notation of configuration files, with comments and trailing commas. -/
  | relaxed
  /-- Text in the strict notation that programs exchange. -/
  | strict
  /-- A value that has been read before. -/
  | value
  deriving DecidableEq, Repr, Inhabited

/-- What a document holds at the place where something else was expected. -/
inductive Found
  | null
  | bool (b : Bool)
  | integer (n : Int)
  | double (x : Binary64)
  | text (s : String)
  | list
  | object
  deriving DecidableEq, Repr, Inhabited

/-- How a message names what it found. -/
def Found.describe (dialect : Dialect) : Found → String
  | .null => if dialect = .relaxed then "unit value" else "null"
  | .bool b => "boolean `" ++ (if b then "true" else "false") ++ "`"
  | .integer n => "integer `" ++ toString n ++ "`"
  | .double x =>
    "floating point `" ++ (if dialect = .relaxed then x.positional else x.scientific) ++ "`"
  | .text s => "string " ++ quoted s
  | .list => "sequence"
  | .object => "map"

/-- A token of the relaxed notation that denotes nothing. -/
inductive LiteralFault
  /-- A leading surrogate with nothing after it. -/
  | missingTrail
  /-- A leading surrogate followed by a code that is no trailing one. -/
  | expectedTrail
  /-- A trailing surrogate on its own. -/
  | unexpectedTrail
  /-- Hexadecimal digits that are none, or too many. -/
  | hexadecimal
  /-- A whole number out of range. -/
  | integer
  /-- A numeral that no decimal number is written as. -/
  | number
  /-- A decimal number beyond every double. -/
  | tooLarge
  deriving DecidableEq, Repr, Inhabited

def LiteralFault.message : LiteralFault → String
  | .missingTrail => "missing unicode trail surrogate"
  | .expectedTrail => "expecting unicode trail surrogate"
  | .unexpectedTrail => "unexpected unicode trail surrogate"
  | .hexadecimal => "error parsing hex"
  | .integer => "error parsing integer"
  | .number => "error parsing number"
  | .tooLarge => "error parsing number: too large"

/-- Why a document cannot be read as what is asked for. -/
inductive ReadFault
  /-- The text breaks the grammar of its notation. -/
  | grammar (dialect : Dialect)
  /-- A token denotes nothing. -/
  | literal (fault : LiteralFault)
  /-- A value of another type. -/
  | wrongType (dialect : Dialect) (found : Found) (expected : String)
  /-- A value of the right type out of range. -/
  | wrongValue (dialect : Dialect) (found : Found) (expected : String)
  /-- A list of another length. -/
  | wrongLength (length : Nat) (expected : String)
  | missingField (name : String)
  | repeatedField (name : String)
  | unknownVariant (name : String) (known : List String)
  /-- Neither a name nor an object where one of several names is due. -/
  | noVariant
  /-- An object without members where its first name is due. -/
  | emptyVariant
  deriving DecidableEq, Repr, Inhabited

/-- Names in code quotes, as a choice. -/
def oneOf : List String → String
  | [] => "there are no variants"
  | [a] => "expected `" ++ a ++ "`"
  | [a, b] => "expected `" ++ a ++ "` or `" ++ b ++ "`"
  | names => "expected one of " ++ ", ".intercalate (names.map fun a => "`" ++ a ++ "`")

def ReadFault.message : ReadFault → String
  | .grammar .relaxed => "<json5 syntax error>"
  | .grammar _ => "<json syntax error>"
  | .literal fault => fault.message
  | .wrongType dialect found expected =>
    "invalid type: " ++ found.describe dialect ++ ", expected " ++ expected
  | .wrongValue dialect found expected =>
    "invalid value: " ++ found.describe dialect ++ ", expected " ++ expected
  | .wrongLength length expected =>
    "invalid length " ++ toString length ++ ", expected " ++ expected
  | .missingField name => "missing field `" ++ name ++ "`"
  | .repeatedField name => "duplicate field `" ++ name ++ "`"
  | .unknownVariant name known => "unknown variant `" ++ name ++ "`, " ++ oneOf known
  | .noVariant => "expected a string or an object"
  | .emptyVariant => "expected a nonempty object"

end LintFront
