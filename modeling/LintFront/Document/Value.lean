import LintFront.Number.Decimal
import LintFront.Table

/-!
# Values of a document

* `Value`: null, truth values, numbers, texts, lists and objects. The members of an object are in
  order of insertion.
* `Value.merge`: the deep merge of two values, in which the first one decides wherever they differ.
-/

namespace LintFront

/-- A number of a document: a whole number or a double, as it was written. -/
inductive Number
  | integer (n : Int)
  | double (x : Binary64)
  deriving DecidableEq, Repr, Inhabited

/-- A value of a document. -/
inductive Value
  | null
  | bool (b : Bool)
  | number (n : Number)
  | text (s : String)
  | list (items : List Value)
  | object (members : List (String × Value))
  deriving Repr, Inhabited, BEq

namespace Value

/-- The member of an object with the given name. -/
def member? (name : String) : Value → Option Value
  | .object members => Table.find? members name
  | _ => none

mutual

/-- The deep merge of `target` with `source`: two objects are joined member by member, anything
else stays as `target` has it. -/
def merge (target : Value) : Value → Value
  | .object source =>
    match target with
    | .object members => .object (mergeMembers members source)
    | other => other
  | _ => target

/-- The members of a second object brought into those of a first one. -/
def mergeMembers (members : List (String × Value)) :
    List (String × Value) → List (String × Value)
  | [] => members
  | (name, value) :: rest =>
    mergeMembers
      (Table.upsert name (fun
        | some present => merge present value
        | none => value) members)
      rest

end

end Value

end LintFront
