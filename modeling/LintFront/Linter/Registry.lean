import LintFront.Linter.Basic

/-!
# The linters of a run

A registry belongs to one run. It keeps the first linter that is registered under an id.

* `LinterRegistry.register`: one more linter, and whether it was taken.
* `LinterRegistry.catalogs`: the catalogs of the linters that declare one.
* `find?_register`, `ids_register`: what a registration changes.
-/

namespace LintFront

/-- Linters by id in the order of their registration. -/
structure LinterRegistry where
  linters : Table LinterDescriptor := []
  deriving DecidableEq, Repr, Inhabited

namespace LinterRegistry

/-- The linter registered under an id. -/
def find? (r : LinterRegistry) (id : String) : Option LinterDescriptor := r.linters.find? id

/-- The ids in order. -/
def ids (r : LinterRegistry) : List String := r.linters.names

/-- The linters in order. -/
def all (r : LinterRegistry) : List LinterDescriptor := r.linters.values

def size (r : LinterRegistry) : Nat := r.linters.length

def isEmpty (r : LinterRegistry) : Bool := r.linters.isEmpty

/-- The registry with one more linter, and whether it was taken: an id that is known already keeps
its linter. -/
def register (r : LinterRegistry) (linter : LinterDescriptor) : LinterRegistry × Bool :=
  (⟨r.linters.keep linter.id linter⟩, !r.linters.has linter.id)

/-- The registry with more linters, one after the other. -/
def registerAll (r : LinterRegistry) (linters : List LinterDescriptor) : LinterRegistry :=
  linters.foldl (fun r linter => (r.register linter).1) r

/-- The catalogs of the linters that declare one, by the id of the linter. -/
def catalogs (r : LinterRegistry) : Table IssueCatalog :=
  Table.mergeWith (fun _ later => later) [] <|
    r.all.filterMap fun linter => linter.catalog.map fun catalog => (linter.id, catalog)

/-- A registry is written as the list of its linters. -/
def toValue (r : LinterRegistry) : Value := lintersValue r.all

/-! ## What a registration changes -/

theorem find?_register (r : LinterRegistry) (linter : LinterDescriptor) (id : String) :
    (r.register linter).1.find? id =
      if id == linter.id then some ((r.find? id).getD linter) else r.find? id := by
  simp only [register, find?, Table.keep, Table.find?_upsert]
  split
  · rename_i h
    simp [eq_of_beq h]
  · rfl

theorem ids_register (r : LinterRegistry) (linter : LinterDescriptor) :
    (r.register linter).1.ids =
      if linter.id ∈ r.ids then r.ids else r.ids ++ [linter.id] :=
  Table.names_upsert linter.id _ r.linters

end LinterRegistry

end LintFront
