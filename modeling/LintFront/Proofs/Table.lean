import LintFront.Proofs.Union

/-!
# Tables that hold each name once

A table is built by operations that look a name up before they insert it, so that no name comes in
twice. Such a table is given by its names in order and by what each of them stands for.

* `Table.Distinct`: no name comes twice.
* `Table.ext_find`: tables with the same names and the same entries are the same.
* `Table.names_mergeWith`, `Table.find?_mergeWith`: a table brought into another one.
* `Table.mergeWith_assoc`: three tables, if their entries are joined associatively.
* `Table.join`: the meaning of several tables, the highest first.
* `Table.foldl_mergeWith`: bringing them in one after the other gives that meaning.
-/

namespace LintFront.Table

variable {α : Type}

/-- No name comes twice. -/
def Distinct (t : Table α) : Prop := (names t).Nodup

instance (t : Table α) : Decidable t.Distinct := inferInstanceAs (Decidable (List.Nodup _))

theorem distinct_nil : Distinct ([] : Table α) := List.nodup_nil

/-! ## Names and what they stand for -/

theorem names_cons (name : String) (value : α) (t : Table α) :
    names ((name, value) :: t) = name :: names t := rfl

theorem mem_names_of_mem {t : Table α} {entry : String × α} (h : entry ∈ t) :
    entry.1 ∈ names t := List.mem_map_of_mem h

theorem find?_isSome_iff {t : Table α} {name : String} :
    (find? t name).isSome ↔ name ∈ names t := by
  induction t with
  | nil => simp [names]
  | cons entry rest ih =>
    rw [find?_cons, names_cons, List.mem_cons]
    by_cases h : name = entry.1
    · simp [h]
    · simp [h, ih]

theorem find?_eq_none_iff {t : Table α} {name : String} :
    find? t name = none ↔ name ∉ names t := by
  rw [← find?_isSome_iff, Option.not_isSome_iff_eq_none]

theorem mem_of_find? {t : Table α} {name : String} {value : α} (h : find? t name = some value) :
    (name, value) ∈ t := by
  induction t with
  | nil => simp at h
  | cons entry rest ih =>
    rw [find?_cons] at h
    split at h
    · rename_i hname
      obtain rfl : name = entry.1 := by simpa using hname
      obtain rfl := Option.some.inj h
      exact List.mem_cons_self
    · exact List.mem_cons_of_mem _ (ih h)

theorem Distinct.find?_of_mem {t : Table α} (ht : t.Distinct) {name : String} {value : α}
    (h : (name, value) ∈ t) : find? t name = some value := by
  induction t with
  | nil => simp at h
  | cons entry rest ih =>
    obtain ⟨hentry, hrest⟩ := List.nodup_cons.mp ht
    rw [find?_cons]
    rcases List.mem_cons.mp h with rfl | h
    · simp
    · have hne : name ≠ entry.1 := fun e => hentry (e ▸ mem_names_of_mem h)
      simpa [hne] using ih hrest h

theorem Distinct.map_find? {t : Table α} (ht : t.Distinct) :
    t.names.map t.find? = t.values.map some := by
  rw [names, values, List.map_map, List.map_map]
  exact List.map_congr_left fun entry hentry => ht.find?_of_mem hentry

/-- A table without repeated names is given by its names and by what they stand for. -/
theorem ext_find {t u : Table α} (ht : t.Distinct) (hnames : names t = names u)
    (hfind : ∀ name, find? t name = find? u name) : t = u := by
  induction t generalizing u with
  | nil =>
    cases u with
    | nil => rfl
    | cons entry rest => simp [names] at hnames
  | cons entry t ih =>
    cases u with
    | nil => simp [names] at hnames
    | cons other u =>
      obtain ⟨name, value⟩ := entry
      obtain ⟨name', value'⟩ := other
      simp only [names_cons, List.cons.injEq] at hnames
      obtain ⟨rfl, htail⟩ := hnames
      have hvalue := hfind name
      simp only [find?_cons, beq_self_eq_true, if_true, Option.some.injEq] at hvalue
      obtain ⟨hname, hrest⟩ := List.nodup_cons.mp ht
      rw [hvalue, ih hrest htail]
      intro key
      by_cases hkey : key = name
      · rw [hkey, find?_eq_none_iff.mpr hname, find?_eq_none_iff.mpr (htail ▸ hname)]
      · have := hfind key
        simpa [find?_cons, hkey] using this

/-! ## One entry changed -/

theorem Distinct.upsert {t : Table α} (ht : t.Distinct) (name : String) (f : Option α → α) :
    (upsert name f t).Distinct := by
  unfold Distinct
  rw [names_upsert]
  split
  · exact ht
  · rename_i h
    refine List.nodup_append.mpr ⟨ht, by simp, ?_⟩
    intro x hx y hy hxy
    rw [List.mem_singleton] at hy
    exact h (hy ▸ hxy ▸ hx)

theorem mem_upsert {t : Table α} {name : String} {f : Option α → α} {entry : String × α}
    (h : entry ∈ Table.upsert name f t) : entry ∈ t ∨ entry = (name, f (find? t name)) := by
  induction t with
  | nil =>
    right
    simpa [Table.upsert] using h
  | cons head rest ih =>
    obtain ⟨key, value⟩ := head
    rw [Table.upsert] at h
    rw [find?_cons]
    by_cases hkey : key = name
    · subst hkey
      rw [if_pos (by simp)] at h
      rcases List.mem_cons.mp h with rfl | h
      · right
        simp
      · left
        exact List.mem_cons_of_mem _ h
    · rw [if_neg (by simpa using hkey)] at h
      have hne : ¬ name = key := fun e => hkey e.symm
      rcases List.mem_cons.mp h with rfl | h
      · left
        exact List.mem_cons_self
      · rcases ih h with h | h
        · left
          exact List.mem_cons_of_mem _ h
        · right
          simpa [hne] using h

/-- A new name comes in at the end. -/
theorem put_of_not_mem {t : Table α} {name : String} (h : name ∉ names t) (a : α) :
    t.put name a = t ++ [(name, a)] := by
  induction t with
  | nil => rfl
  | cons entry rest ih =>
    obtain ⟨key, value⟩ := entry
    rw [names_cons, List.mem_cons, not_or] at h
    have hkey : (key == name) = false := by simpa using fun heq : key = name => h.1 heq.symm
    simp only [Table.put, Table.upsert, hkey, Bool.false_eq_true, if_false, List.cons_append]
    rw [← ih h.2, Table.put]

theorem erase_append_of_not_mem {t : Table α} {name : String} (h : name ∉ names t) (a : α) :
    Table.erase (t ++ [(name, a)]) name = t := by
  have hkept : t.filter (fun entry => entry.1 != name) = t := by
    refine List.filter_eq_self.mpr fun entry hentry => ?_
    have hne : entry.1 ≠ name := fun heq => h (heq ▸ mem_names_of_mem hentry)
    simpa using hne
  rw [Table.erase, List.filter_append, hkept]
  simp

/-! ## One table brought into another -/

theorem mergeWith_cons (f : α → α → α) (t s : Table α) (name : String) (value : α) :
    mergeWith f t ((name, value) :: s) =
      mergeWith f (upsert name (fun
        | some present => f present value
        | none => value) t) s := rfl

theorem names_mergeWith (f : α → α → α) (t s : Table α) :
    names (mergeWith f t s) = union (names t) (names s) := by
  induction s generalizing t with
  | nil => rfl
  | cons entry rest ih => rw [mergeWith_cons, ih, names_upsert, names_cons, union_cons]

theorem Distinct.mergeWith {t : Table α} (ht : t.Distinct) (f : α → α → α) (s : Table α) :
    (mergeWith f t s).Distinct := by
  unfold Distinct
  rw [names_mergeWith]
  exact nodup_union ht _

theorem find?_mergeWith (f : α → α → α) (t : Table α) {s : Table α} (hs : s.Distinct)
    (name : String) : find? (mergeWith f t s) name = (find? t name).merge f (find? s name) := by
  induction s generalizing t with
  | nil => simp [mergeWith]
  | cons entry rest ih =>
    obtain ⟨key, value⟩ := entry
    obtain ⟨hkey, hrest⟩ := List.nodup_cons.mp hs
    rw [mergeWith_cons, ih _ hrest, find?_upsert, find?_cons]
    by_cases h : name = key
    · subst h
      rw [find?_eq_none_iff.mpr hkey]
      cases find? t name <;> simp
    · simp [h]

/-- What stands in a merged table stands in one of the two, or is joined from both. -/
theorem find?_of_mem_mergeWith {f : α → α → α} {t s : Table α} (ht : t.Distinct)
    (hs : s.Distinct) {entry : String × α} (h : entry ∈ mergeWith f t s) :
    find? t entry.1 = some entry.2 ∨ find? s entry.1 = some entry.2 ∨
      ∃ a b, find? t entry.1 = some a ∧ find? s entry.1 = some b ∧ f a b = entry.2 := by
  have hfind := (ht.mergeWith f s).find?_of_mem h
  rw [find?_mergeWith f t hs, Option.merge_eq_some_iff] at hfind
  rcases hfind with ⟨hleft, -⟩ | ⟨-, hright⟩ | hboth
  · exact Or.inl hleft
  · exact Or.inr (Or.inl hright)
  · exact Or.inr (Or.inr hboth)

theorem mergeWith_nil_left (f : α → α → α) {s : Table α} (hs : s.Distinct) :
    mergeWith f [] s = s := by
  refine ext_find (distinct_nil.mergeWith f s) ?_ ?_
  · rw [names_mergeWith]
    exact dedupe_eq_self hs
  · intro name
    simp [find?_mergeWith f [] hs]

/-- Three tables may be merged in either order if the entries that they share may. -/
theorem mergeWith_assoc {f : α → α → α} {t u v : Table α} (ht : t.Distinct) (hu : u.Distinct)
    (hv : v.Distinct)
    (h : ∀ name a b c, find? t name = some a → find? u name = some b → find? v name = some c →
      f (f a b) c = f a (f b c)) :
    mergeWith f (mergeWith f t u) v = mergeWith f t (mergeWith f u v) := by
  refine ext_find ((ht.mergeWith f u).mergeWith f v) ?_ ?_
  · simp only [names_mergeWith, union_assoc]
  · intro name
    rw [find?_mergeWith f _ hv, find?_mergeWith f t hu, find?_mergeWith f t (hu.mergeWith f v),
      find?_mergeWith f u hv]
    cases ht' : find? t name with
    | none => simp
    | some a =>
      cases hu' : find? u name with
      | none => simp
      | some b =>
        cases hv' : find? v name with
        | none => simp
        | some c => simp [h name a b c ht' hu' hv']

/-! ## Several tables -/

/-- The value that the values of one name come to, the highest first: `f` of the highest one and
of the lower ones. -/
def joinValues (f : α → List α → α) : List α → Option α
  | [] => none
  | value :: below => some (f value below)

/-- Several tables, the highest first, as one: their names in the order in which they first come,
each with what its values come to. -/
def join (f : α → List α → α) (tables : List (Table α)) : Table α :=
  (tables.flatMap names).eraseDups.filterMap fun name =>
    (joinValues f (tables.filterMap (find? · name))).map fun value => (name, value)

theorem names_filterMap {g : String → Option α} {list : List String}
    (h : ∀ name ∈ list, (g name).isSome) :
    names (list.filterMap fun name => (g name).map fun value => (name, value)) = list := by
  induction list with
  | nil => rfl
  | cons head rest ih =>
    obtain ⟨value, hvalue⟩ := Option.isSome_iff_exists.mp (h head List.mem_cons_self)
    simp only [List.filterMap_cons, hvalue, Option.map_some, names_cons]
    rw [ih fun name hname => h name (List.mem_cons_of_mem _ hname)]

theorem distinct_filterMap (g : String → Option α) {list : List String} (h : list.Nodup) :
    Distinct (list.filterMap fun name => (g name).map fun value => (name, value)) := by
  have hnames : ∀ list : List String,
      (names (list.filterMap fun name => (g name).map fun value => (name, value))).Sublist
        list := by
    intro list
    induction list with
    | nil => exact List.Sublist.refl _
    | cons head rest ih =>
      rw [List.filterMap_cons]
      cases g head with
      | none => exact ih.cons _
      | some value => exact ih.cons_cons _
  exact h.sublist (hnames list)

theorem find?_filterMap (g : String → Option α) (list : List String) (name : String) :
    find? (list.filterMap fun name => (g name).map fun value => (name, value)) name =
      if name ∈ list then g name else none := by
  induction list with
  | nil => simp
  | cons head rest ih =>
    rw [List.filterMap_cons]
    cases hg : g head with
    | none =>
      by_cases h : name = head
      · subst h
        simp [ih, hg]
      · simp [ih, h]
    | some value =>
      by_cases h : name = head
      · subst h
        simp [find?_cons, hg]
      · simp [find?_cons, ih, h]

theorem joinValues_isSome_iff {f : α → List α → α} {tables : List (Table α)} {name : String} :
    (joinValues f (tables.filterMap (find? · name))).isSome ↔ name ∈ tables.flatMap names := by
  induction tables with
  | nil => simp [joinValues]
  | cons head rest ih =>
    rw [List.filterMap_cons, List.flatMap_cons, List.mem_append, ← find?_isSome_iff]
    cases h : find? head name with
    | none => simpa [h] using ih
    | some value => simp [joinValues]

theorem names_join (f : α → List α → α) (tables : List (Table α)) :
    names (join f tables) = (tables.flatMap names).eraseDups :=
  names_filterMap fun _ hname => joinValues_isSome_iff.mpr (List.mem_eraseDups.mp hname)

theorem find?_join (f : α → List α → α) (tables : List (Table α)) (name : String) :
    find? (join f tables) name = joinValues f (tables.filterMap (find? · name)) := by
  rw [join, find?_filterMap]
  split
  · rfl
  · rename_i h
    rw [List.mem_eraseDups, ← joinValues_isSome_iff (f := f), Option.not_isSome_iff_eq_none] at h
    exact h.symm

theorem names_foldl_mergeWith (f : α → α → α) (t : Table α) (tables : List (Table α)) :
    names (tables.foldl (mergeWith f) t) = union (names t) (tables.flatMap names) := by
  induction tables generalizing t with
  | nil => rfl
  | cons head rest ih =>
    rw [List.foldl_cons, ih, names_mergeWith, List.flatMap_cons, union_append]

theorem find?_foldl_mergeWith (f : α → α → α) (t : Table α) {tables : List (Table α)}
    (h : ∀ u ∈ tables, u.Distinct) (name : String) :
    find? (tables.foldl (Table.mergeWith f) t) name =
      joinValues (fun value below => below.foldl f value)
        ((t :: tables).filterMap (find? · name)) := by
  induction tables generalizing t with
  | nil => cases ht : find? t name <;> simp [joinValues, ht]
  | cons head rest ih =>
    rw [List.foldl_cons, ih _ fun u hu => h u (List.mem_cons_of_mem _ hu)]
    have hhead := find?_mergeWith f t (h head List.mem_cons_self) name
    cases ht : find? t name <;> cases hu : find? head name <;>
      simp [joinValues, hhead, ht, hu]

/-- Tables brought one after the other into the first one. -/
theorem foldl_mergeWith (f : α → α → α) {t : Table α} {tables : List (Table α)}
    (h : ∀ u ∈ t :: tables, u.Distinct) :
    tables.foldl (Table.mergeWith f) t =
      join (fun value below => below.foldl f value) (t :: tables) := by
  have ht : t.Distinct := h t List.mem_cons_self
  have hnames : names (tables.foldl (Table.mergeWith f) t) =
      ((t :: tables).flatMap names).eraseDups := by
    rw [names_foldl_mergeWith, List.flatMap_cons, ← dedupe_eq_eraseDups, dedupe, union_append]
    exact congrArg (union · _) (dedupe_eq_self ht).symm
  refine ext_find ?_ (hnames.trans (names_join _ _).symm) ?_
  · unfold Distinct
    rw [names_foldl_mergeWith]
    exact nodup_union ht _
  · intro name
    rw [find?_foldl_mergeWith f t fun u hu => h u (List.mem_cons_of_mem _ hu), find?_join]

/-- The meaning of several tables depends on `f` only at the values that stand under one name. -/
theorem join_congr {f g : α → List α → α} {tables : List (Table α)}
    (h : ∀ name value below, tables.filterMap (find? · name) = value :: below →
      f value below = g value below) : join f tables = join g tables := by
  unfold join
  congr 1
  funext name
  cases hvalues : tables.filterMap (find? · name) with
  | nil => rfl
  | cons value below => simp only [joinValues, h name value below hvalues]

/-! ## Optional tables -/

/-- Several optional tables, the highest first, as one: nothing if none of them is there. -/
def joinOptional (f : α → List α → α) (tables : List (Option (Table α))) : Option (Table α) :=
  match tables.filterMap id with
  | [] => none
  | present => some (join f present)

/-- Optional tables brought one after the other into nothing. -/
theorem foldl_mergeTables (f : α → α → α) {tables : List (Option (Table α))}
    (h : ∀ t, some t ∈ tables → t.Distinct) :
    tables.foldl (mergeTables f) none =
      joinOptional (fun value below => below.foldl f value) tables := by
  rw [foldl_optional (g := Table.mergeWith f) (e := []) (fun _ => rfl) (fun _ _ => rfl),
    joinOptional]
  cases hpresent : tables.filterMap id with
  | nil => rfl
  | cons head rest =>
    have hdistinct : ∀ u ∈ head :: rest, u.Distinct := by
      intro u hu
      rw [← hpresent] at hu
      obtain ⟨_, hmem, rfl⟩ := List.mem_filterMap.mp hu
      exact h u hmem
    refine congrArg some ?_
    rw [List.foldl_cons, Option.getD_none, mergeWith_nil_left f (hdistinct head List.mem_cons_self)]
    exact foldl_mergeWith f hdistinct

theorem find?_mergeTables (f : α → α → α) (t : Option (Table α)) {u : Option (Table α)}
    (hu : ∀ v, u = some v → v.Distinct) (name : String) :
    find? ((mergeTables f t u).getD []) name =
      (find? (t.getD []) name).merge f (find? (u.getD []) name) := by
  cases u with
  | none => simp [mergeTables]
  | some u => exact find?_mergeWith f (t.getD []) (hu u rfl) name

theorem mergeTables_assoc {f : α → α → α} {t u v : Option (Table α)}
    (ht : ∀ a, t = some a → a.Distinct) (hu : ∀ b, u = some b → b.Distinct)
    (hv : ∀ c, v = some c → c.Distinct)
    (h : ∀ t' u' v', t = some t' → u = some u' → v = some v' → ∀ name a b c,
      find? t' name = some a → find? u' name = some b → find? v' name = some c →
      f (f a b) c = f a (f b c)) :
    mergeTables f (mergeTables f t u) v = mergeTables f t (mergeTables f u v) := by
  cases v with
  | none => rfl
  | some v' =>
    have hv' : v'.Distinct := hv v' rfl
    cases u with
    | none => simp [mergeTables, mergeWith_nil_left f hv']
    | some u' =>
      have hu' : u'.Distinct := hu u' rfl
      refine congrArg some ?_
      cases t with
      | none =>
        exact mergeWith_assoc distinct_nil hu' hv' (by simp)
      | some t' =>
        exact mergeWith_assoc (ht t' rfl) hu' hv' (h t' u' v' rfl rfl rfl)

end LintFront.Table
