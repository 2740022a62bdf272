import LintFront.Document.Tree

/-!
# Typed reading

A reader fits a tree to a type. It takes the parts of the tree in their order, so that of two
faults the first one counts.

* `Reader`: a reader of values of a type.
* `readText`, `readBool`, `readNatural`, `readList`, `readTable`, `readValue`, `readOptional`: the
  readers of the basic types.
* `readVariant`: one of several names.
* `readRecord`: a record from an object, or from a list of its fields in their order.
-/

namespace LintFront

/-- Fits a tree of the given origin to a type. -/
abbrev Reader (α : Type) := Dialect → Tree → Read α

/-! ## Basic types -/

def readText (expected : String) : Reader String
  | _, .text s => s
  | dialect, t => t.mismatch dialect expected

def readBool : Reader Bool
  | _, .bool b => .ok b
  | dialect, t => t.mismatch dialect "a boolean"

/-- A whole number below `bound`. -/
def readNatural (bound : Nat) (expected : String) : Reader Nat
  | dialect, .number n => do
    match ← n with
    | .integer n =>
      if 0 ≤ n ∧ n < bound then return n.toNat
      else .error (.wrongValue dialect (.integer n) expected)
    | .double x => .error (.wrongType dialect (.double x) expected)
  | dialect, t => t.mismatch dialect expected

/-- Any value. -/
def readValue : Reader Value
  | _, t => t.toValue

/-- Null is nothing; anything else is read as it is. -/
def readOptional {α : Type} (read : Reader α) : Reader (Option α)
  | _, .null => .ok none
  | dialect, t => (read dialect t).map some

/-- The items of a list in order. -/
def readItems {α : Type} (read : Reader α) (dialect : Dialect) : List Tree → Read (List α)
  | [] => .ok []
  | t :: rest => do
    let item ← read dialect t
    let items ← readItems read dialect rest
    return item :: items

def readList {α : Type} (read : Reader α) : Reader (List α)
  | dialect, .list items stop => do
    let items ← readItems read dialect items
    Read.unless stop
    return items
  | dialect, t => t.mismatch dialect "a sequence"

/-- The members of an object in order, after those read before them: the last value of a name
counts, in the place of its first. -/
def readMembers {α : Type} (read : Reader α) (dialect : Dialect) (done : Table α) :
    List (Read String × Tree) → Read (Table α)
  | [] => .ok done
  | (name, t) :: rest => do
    let name ← name
    let value ← read dialect t
    readMembers read dialect (done.put name value) rest

def readTable {α : Type} (read : Reader α) : Reader (Table α)
  | dialect, .object members stop => do
    let table ← readMembers read dialect [] members
    Read.unless stop
    return table
  | dialect, t => t.mismatch dialect "a map"

/-! ## One of several names -/

/-- What a name stands for, among the known ones. -/
def lookupVariant {α : Type} (variants : Table α) (name : String) : Read α :=
  match variants.find? name with
  | some value => .ok value
  | none => .error (.unknownVariant name variants.names)

/-- One of several names, as a text or as the name of a member. Relaxed text takes the first
member and passes by its value and all others; elsewhere the one member has the value null. -/
def readVariant {α : Type} (variants : Table α) : Reader α
  | _, .text s => do lookupVariant variants (← s)
  | .relaxed, .object [] _ => .error .emptyVariant
  | .relaxed, .object ((name, _) :: _) _ => do lookupVariant variants (← name)
  | .relaxed, _ => .error .noVariant
  | .strict, .object ((name, t) :: rest) stop => do
    let value ← lookupVariant variants (← name)
    match t with
    | .null =>
      if rest.isEmpty then
        Read.unless stop
        return value
      else .error (.grammar .strict)
    | t => t.mismatch .strict "unit"
  | .strict, .object [] stop => do
    Read.unless stop
    .error (.grammar .strict)
  | .strict, .broken fault => .error fault
  | .strict, _ => .error (.grammar .strict)
  | .value, .object [(name, t)] _ => do
    let value ← lookupVariant variants (← name)
    match t with
    | .null => return value
    | t => t.mismatch .value "unit"
  | .value, .object .. => .error (.wrongValue .value .object "map with a single key")
  | .value, t => t.mismatch .value "string or map"

/-! ## Records -/

/-- A field of a record that is being read. -/
structure Field (α : Type) where
  name : String
  /-- Other names that mean the same field. -/
  aliases : List String
  /-- Whether an object must have the field. -/
  required : Bool
  /-- Whether a list of fields must reach the field. -/
  counted : Bool
  /-- Reads the field into a record. -/
  read : Dialect → Tree → α → Read α

namespace Field

variable {α β : Type}

/-- A field that must be given. -/
def demanded (name : String) (read : Reader β) (set : α → β → α) : Field α :=
  ⟨name, [], true, true, fun dialect t record => return set record (← read dialect t)⟩

/-- A field that has a default. -/
def defaulted (name : String) (read : Reader β) (set : α → β → α) : Field α :=
  ⟨name, [], false, false, fun dialect t record => return set record (← read dialect t)⟩

/-- A field that an object may leave out, but not a list of fields. -/
def optional (name : String) (read : Reader β) (set : α → Option β → α) : Field α :=
  ⟨name, [], false, true,
    fun dialect t record => return set record (← readOptional read dialect t)⟩

/-- A field that both an object and a list of fields may leave out. -/
def omittable (name : String) (read : Reader β) (set : α → Option β → α) : Field α :=
  ⟨name, [], false, false,
    fun dialect t record => return set record (← readOptional read dialect t)⟩

/-- The same field under one more name. -/
def orNamed (field : Field α) (name : String) : Field α :=
  { field with aliases := name :: field.aliases }

/-- Whether a name means the field. -/
def isNamed (field : Field α) (name : String) : Bool :=
  field.name == name || field.aliases.contains name

end Field

variable {α : Type}

/-- The record after the members of an object, read in their order. `seen` are the fields that
have come already. -/
def readFields (fields : List (Field α)) (dialect : Dialect) (seen : List String) (record : α) :
    List (Read String × Tree) → Read (List String × α)
  | [] => .ok (seen, record)
  | (name, t) :: rest => do
    let name ← name
    match fields.find? (·.isNamed name) with
    | none =>
      t.skip dialect
      readFields fields dialect seen record rest
    | some field =>
      if seen.contains field.name then .error (.repeatedField field.name)
      else
        let record ← field.read dialect t record
        readFields fields dialect (field.name :: seen) record rest

/-- The record after a list of fields in their order, and the items left over. `index` counts the
fields before. -/
def readPositions (expected : String) (stop : Option ReadFault) (dialect : Dialect) (index : Nat)
    (record : α) : List (Field α) → List Tree → Read (α × List Tree)
  | [], items => .ok (record, items)
  | field :: fields, [] => do
    Read.unless stop
    if field.counted then .error (.wrongLength index expected)
    else readPositions expected stop dialect (index + 1) record fields []
  | field :: fields, t :: items => do
    let record ← field.read dialect t record
    readPositions expected stop dialect (index + 1) record fields items

/-- A number of elements. -/
def elementCount (n : Nat) : String :=
  toString n ++ if n = 1 then " element" else " elements"

/-- A record of the given type from an object or from a list of its fields, starting from the
defaults of the fields that may be left out. -/
def readRecord (typeName : String) (fields : List (Field α)) (start : α) : Reader α
  | dialect, .object members stop => do
    let (seen, record) ← readFields fields dialect [] start members
    Read.unless stop
    match fields.find? fun field => field.required && !seen.contains field.name with
    | some field => .error (.missingField field.name)
    | none => return record
  | dialect, .list items stop => do
    let expected := typeName ++ " with " ++ elementCount fields.length
    let (record, left) ← readPositions expected stop dialect 0 start fields items
    match dialect with
    | .relaxed => return record
    | .strict =>
      Read.unless stop
      if left.isEmpty then return record else .error (.grammar .strict)
    | .value =>
      if left.isEmpty then return record
      else .error (.wrongLength items.length "fewer elements in array")
  | dialect, t => t.mismatch dialect typeName

end LintFront
