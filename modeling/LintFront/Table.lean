/-!
# Keyed tables in order of insertion

A table is a list of named entries. A name keeps the place at which it first came in; what it
stands for may change there.

* `Table.find?`: what a name stands for.
* `Table.upsert`: the one operation that changes a table at a name; the others are made from it.
* `Table.mergeWith`: the entries of one table brought into another.
-/

namespace LintFront

/-- Named entries in order of insertion. -/
abbrev Table (α : Type) := List (String × α)

namespace Table

variable {α : Type}

/-- The names in order. -/
def names (t : Table α) : List String := t.map Prod.fst

/-- The values in order of their names. -/
def values (t : Table α) : List α := t.map Prod.snd

/-- What a name stands for. -/
def find? (t : Table α) (name : String) : Option α := List.lookup name t

/-- Whether a name has an entry. -/
def has (t : Table α) (name : String) : Bool := (t.find? name).isSome

/-- The table with `f` of the present value at a name: in the name's place if it has one, at the
end otherwise. -/
def upsert (name : String) (f : Option α → α) : Table α → Table α
  | [] => [(name, f none)]
  | (key, value) :: rest =>
    if key == name then (key, f (some value)) :: rest else (key, value) :: upsert name f rest

/-- The table with a name standing for `value`, whatever it stood for before. -/
def put (t : Table α) (name : String) (value : α) : Table α := upsert name (fun _ => value) t

/-- The table with `value` at a name that has no entry yet. -/
def keep (t : Table α) (name : String) (value : α) : Table α := upsert name (·.getD value) t

/-- The table without a name. -/
def erase (t : Table α) (name : String) : Table α := t.filter fun entry => entry.1 != name

/-- The entries of `source` brought into `target` one after the other: a new name comes in at the
end, at a known one `combine` joins the present value and the new one. -/
def mergeWith (combine : α → α → α) (target source : Table α) : Table α :=
  source.foldl (fun t entry =>
    upsert entry.1 (fun
      | some present => combine present entry.2
      | none => entry.2) t) target

/-! ## Names and values after a change -/

@[simp]
theorem find?_nil (name : String) : find? ([] : Table α) name = none := rfl

theorem find?_cons (key : String) (value : α) (t : Table α) (name : String) :
    find? ((key, value) :: t) name = if name == key then some value else find? t name := by
  simp only [find?, List.lookup_cons]
  split <;> simp_all

theorem find?_upsert (name key : String) (f : Option α → α) (t : Table α) :
    find? (upsert name f t) key =
      if key == name then some (f (find? t name)) else find? t key := by
  induction t with
  | nil => simp [upsert, find?_cons]
  | cons entry rest ih =>
    obtain ⟨k, v⟩ := entry
    simp only [upsert]
    split
    · rename_i h
      have hk : k = name := by simpa using h
      subst hk
      simp only [find?_cons]
      split <;> simp_all
    · rename_i h
      have hk : k ≠ name := by simpa using h
      simp only [find?_cons, ih]
      split
      · rename_i hkey
        have : key = k := by simpa using hkey
        subst this
        simp [hk]
      · split <;> simp_all

/-- Names stay where they are; a new one comes in at the end. -/
theorem names_upsert (name : String) (f : Option α → α) (t : Table α) :
    names (upsert name f t) = if name ∈ names t then names t else names t ++ [name] := by
  induction t with
  | nil => simp [upsert, names]
  | cons entry rest ih =>
    obtain ⟨k, v⟩ := entry
    simp only [upsert]
    split
    · rename_i h
      simp only [beq_iff_eq] at h
      subst h
      simp [names]
    · rename_i h
      simp only [beq_iff_eq] at h
      have hne : name ≠ k := fun e => h e.symm
      simp only [names, List.map_cons, List.mem_cons, hne, false_or] at ih ⊢
      rw [ih]
      split <;> simp_all

end Table

end LintFront
