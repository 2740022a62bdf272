import LintFront.Linter.Basic

/-!
# What a plugin exports

A plugin may export a linter, a list of exports, an object with a list of exports as its `linters`,
or an object whose `default` is an export. The first of these shapes that fits counts. Whatever has
none of them exports no linters.

* `PluginExport`: the shapes.
* `PluginExport.read`: the shape of a document.
* `PluginExport.flatten`: the linters of an export in order.
-/

namespace LintFront

/-- The shapes of an export. -/
inductive PluginExport
  | linter (descriptor : LinterDescriptor)
  | many (items : List PluginExport)
  | collection (linters : List PluginExport)
  | defaulted (inner : PluginExport)
  | unrecognized
  deriving Repr, Inhabited

namespace PluginExport

/-- The name of the shape. -/
def shape : PluginExport → String
  | .linter _ => "linter"
  | .many _ => "many"
  | .collection _ => "collection"
  | .defaulted _ => "default"
  | .unrecognized => "unrecognized"

/-! ## Reading -/

/-- What the members of an object hold under the two names that count. -/
structure Wrapped where
  /-- For every member named `linters`, its items, if it is a list. -/
  linters : List (Option (List PluginExport)) := []
  /-- The members named `default`. -/
  defaults : List PluginExport := []
  deriving Inhabited

/-- The export of an object that is no linter: each of the two names must come just once. -/
def Wrapped.toExport (w : Wrapped) : PluginExport :=
  match w.linters, w.defaults with
  | [some items], _ => .collection items
  | _, [inner] => .defaulted inner
  | _, _ => .unrecognized

/-- The linter that a tree is, or the export that it is otherwise. -/
def linterOr (t : Tree) (other : PluginExport) : PluginExport :=
  match LinterDescriptor.read .value t with
  | .ok descriptor => .linter descriptor
  | .error _ => other

mutual

/-- The export of a tree without faults. -/
def ofTree : Tree → PluginExport
  | .list items stop => linterOr (.list items stop) (.many (ofItems items))
  | .object members stop => linterOr (.object members stop) (ofMembers members).toExport
  | _ => .unrecognized

/-- The exports of items in order. -/
def ofItems : List Tree → List PluginExport
  | [] => []
  | t :: rest => ofTree t :: ofItems rest

/-- What the members of an object hold. -/
def ofMembers : List (Read String × Tree) → Wrapped
  | [] => {}
  | (.ok "linters", .list items _) :: rest =>
    let w := ofMembers rest
    { w with linters := some (ofItems items) :: w.linters }
  | (.ok "linters", _) :: rest =>
    let w := ofMembers rest
    { w with linters := none :: w.linters }
  | (.ok "default", t) :: rest =>
    let w := ofMembers rest
    { w with defaults := ofTree t :: w.defaults }
  | _ :: rest => ofMembers rest

end

/-- The export of a document. Every document is one, so only a fault in its text can fail. -/
def read : Reader PluginExport := fun _ t => do
  let _ ← t.toValue
  return ofTree t

/-! ## Flattening -/

mutual

/-- The linters of an export in order. -/
def flatten : PluginExport → List LinterDescriptor
  | .linter descriptor => [descriptor]
  | .many items => flattenItems items
  | .collection linters => flattenItems linters
  | .defaulted inner => flatten inner
  | .unrecognized => []

/-- The linters of exports in order. -/
def flattenItems : List PluginExport → List LinterDescriptor
  | [] => []
  | item :: rest => flatten item ++ flattenItems rest

end

end PluginExport

end LintFront
