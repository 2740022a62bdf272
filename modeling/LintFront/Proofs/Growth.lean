import LintFront.Proofs.Contributions
import LintFront.Proofs.Loaded

/-!
# Growth under presets

Presets that plugins publish are brought in one after the other. Whatever they hold, and however
many there are, nothing that has been resolved is lost or moved: lists and tables only get longer
at their ends, options only get new members, and whoever is skipped stays skipped.

* `Table.Grows`, `Value.Grows`: a table or a value that only gets more.
* `ResolvedConfig.Grows`: a configuration that only gets more, but for the names that presets take.
* `ResolvedConfig.mergePresets_grows`: bringing in presets lets a configuration grow.
-/

namespace LintFront

/-! ## Tables -/

namespace Table

variable {α : Type} {R : α → α → Prop} {t u v : Table α}

/-- The entries of a table stay in their places, each with a value that is related to the one it
had, and others come after them. -/
inductive Grows (R : α → α → Prop) : Table α → Table α → Prop
  | more (added : Table α) : Grows R [] added
  | kept {name : String} {a b : α} {t u : Table α} (hvalue : R a b) (hrest : Grows R t u) :
    Grows R ((name, a) :: t) ((name, b) :: u)

theorem Grows.refl (hR : ∀ a, R a a) (t : Table α) : Grows R t t := by
  induction t with
  | nil => exact .more []
  | cons entry rest ih => exact .kept (hR entry.2) ih

theorem Grows.trans (hR : ∀ a b c, R a b → R b c → R a c) (h : Grows R t u) (h' : Grows R u v) :
    Grows R t v := by
  induction h generalizing v with
  | more added => exact .more v
  | kept hvalue _ ih =>
    cases h' with
    | kept hvalue' hrest' => exact .kept (hR _ _ _ hvalue hvalue') (ih hrest')

theorem Grows.prefix_names (h : Grows R t u) : names t <+: names u := by
  induction h with
  | more added => exact List.nil_prefix
  | kept _ _ ih => exact List.cons_prefix_cons.mpr ⟨rfl, ih⟩

theorem Grows.of_find? (h : Grows R t u) {name : String} {a : α} (ha : find? t name = some a) :
    ∃ b, find? u name = some b ∧ R a b := by
  induction h with
  | more added => cases ha
  | @kept key _ b _ _ hvalue _ ih =>
    rw [find?_cons] at ha ⊢
    split
    · rename_i hkey
      rw [if_pos hkey] at ha
      cases ha
      exact ⟨b, rfl, hvalue⟩
    · rename_i hkey
      rw [if_neg hkey] at ha
      exact ih ha

theorem Grows.of_mem (h : Grows R t u) {entry : String × α} (hentry : entry ∈ t) :
    ∃ b, (entry.1, b) ∈ u ∧ R entry.2 b := by
  induction h with
  | more added => cases hentry
  | @kept _ _ b _ _ hvalue _ ih =>
    rcases List.mem_cons.mp hentry with rfl | hentry
    · exact ⟨b, List.mem_cons_self, hvalue⟩
    · obtain ⟨b, hb, hvalue⟩ := ih hentry
      exact ⟨b, List.mem_cons_of_mem _ hb, hvalue⟩

theorem grows_upsert (hR : ∀ a, R a a) {f : Option α → α} (hf : ∀ a, R a (f (some a)))
    (name : String) (t : Table α) : Grows R t (upsert name f t) := by
  induction t with
  | nil => exact .more _
  | cons entry rest ih =>
    rw [upsert]
    split
    · exact .kept (hf entry.2) (.refl hR rest)
    · exact .kept (hR entry.2) ih

/-- A table with another one brought in grows if its values do. -/
theorem grows_mergeWith (hR : ∀ a, R a a) (htrans : ∀ a b c, R a b → R b c → R a c)
    {f : α → α → α} (hf : ∀ a b, R a (f a b)) (t s : Table α) : Grows R t (mergeWith f t s) := by
  induction s generalizing t with
  | nil => exact .refl hR t
  | cons entry rest ih =>
    rw [mergeWith_cons]
    exact (grows_upsert hR (fun a => hf a entry.2) entry.1 t).trans htrans (ih _)

end Table

/-! ## Values -/

namespace Value

/-- An object stays an object, with new members only after those it has; anything else stays the
same. -/
def Keeps (v w : Value) : Prop :=
  match v with
  | .object members => ∃ more, w = .object more ∧ Table.names members <+: Table.names more
  | v => w = v

/-- Whatever one path leads to is kept. -/
def GrowsAt (path : List String) (v w : Value) : Prop :=
  ∀ x, at? path v = some x → ∃ y, at? path w = some y ∧ x.Keeps y

/-- Whatever a path leads to is kept. -/
def Grows (v w : Value) : Prop := ∀ path, GrowsAt path v w

theorem Keeps.refl (v : Value) : v.Keeps v := by
  cases v with
  | object members => exact ⟨members, rfl, List.prefix_rfl⟩
  | _ => rfl

theorem Keeps.trans {v w x : Value} (h : v.Keeps w) (h' : w.Keeps x) : v.Keeps x := by
  cases v with
  | object members =>
    obtain ⟨more, rfl, hprefix⟩ := h
    obtain ⟨most, rfl, hprefix'⟩ := h'
    exact ⟨most, rfl, hprefix.trans hprefix'⟩
  | _ =>
    cases h
    exact h'

theorem GrowsAt.refl (path : List String) (v : Value) : GrowsAt path v v :=
  fun x hx => ⟨x, hx, .refl x⟩

theorem GrowsAt.trans {path : List String} {v w x : Value} (h : GrowsAt path v w)
    (h' : GrowsAt path w x) : GrowsAt path v x := by
  intro y hy
  obtain ⟨z, hz, hkeeps⟩ := h y hy
  obtain ⟨z', hz', hkeeps'⟩ := h' z hz
  exact ⟨z', hz', hkeeps.trans hkeeps'⟩

theorem keeps_merge (v w : Value) : v.Keeps (v.merge w) := by
  cases hvm : v.members? with
  | none =>
    rw [merge_of_left hvm]
    exact .refl v
  | some members =>
    cases hwm : w.members? with
    | none =>
      rw [merge_of_right v hwm]
      exact .refl v
    | some source =>
      rw [eq_object_of_members? hvm, eq_object_of_members? hwm, merge_object]
      refine ⟨_, rfl, ?_⟩
      rw [Table.names_mergeWith]
      exact prefix_union _ _

/-- A value with another one merged in grows. -/
theorem grows_merge (v w : Value) : v.Grows (v.merge w) := by
  intro path
  induction path generalizing v w with
  | nil =>
    rintro _ ⟨⟩
    exact ⟨v.merge w, rfl, keeps_merge v w⟩
  | cons name path ih =>
    cases hvm : v.members? with
    | none =>
      rw [merge_of_left hvm]
      exact .refl _ v
    | some members =>
      cases hwm : w.members? with
      | none =>
        rw [merge_of_right v hwm]
        exact .refl _ v
      | some source =>
        rw [eq_object_of_members? hvm, eq_object_of_members? hwm, merge_object]
        intro x hx
        obtain ⟨a, ha, hx⟩ := Option.bind_eq_some_iff.mp hx
        -- The members grow at the rest of the path, whatever they meet.
        have hgrows : Table.Grows (GrowsAt path) members (Table.mergeWith merge members source) :=
          Table.grows_mergeWith (.refl path) (fun _ _ _ => .trans) ih members source
        obtain ⟨b, hb, hab⟩ := hgrows.of_find? ha
        obtain ⟨y, hy, hkeeps⟩ := hab x hx
        exact ⟨y, Option.bind_eq_some_iff.mpr ⟨b, hb, hy⟩, hkeeps⟩

end Value

/-! ## Configurations -/

namespace ResolvedConfig

/-- A configuration that only gets more, but for the names of presets that it does not inherit any
longer. -/
structure Grows (c : ResolvedConfig) (taken : List String) (d : ResolvedConfig) : Prop where
  included : c.included <+: d.included
  excluded : c.excluded <+: d.excluded
  extensions : c.extensions <+: d.extensions
  plugins : d.plugins = c.plugins
  inherited : d.inherited = c.inherited.filter (· ∉ taken)
  linterConfig : (Value.object c.linterConfig).Grows (.object d.linterConfig)
  patterns : Table.names c.scopes <+: Table.names d.scopes
  skips : ∀ path linter,
    (c.scopeFor path).skips linter = true → (d.scopeFor path).skips linter = true

/-- Presets by the names under which plugins publish them, brought in one after the other. -/
def mergePresets (c : ResolvedConfig) (presets : List (String × Configuration)) : ResolvedConfig :=
  presets.foldl (fun c preset => c.mergePreset preset.1 preset.2) c

variable {c d : ResolvedConfig} {path linter name : String} {preset : Configuration}

/-! ## What a file is spared -/

theorem skips_scopeFor_iff_exists :
    (c.scopeFor path).skips linter = true ↔
      ∃ scope ∈ c.scopes, globMatches scope.1 (slashed path) = true ∧
        linter ∈ scope.2.skip.getD [] := by
  rw [ScopeOverride.skips, List.contains_iff_mem, scopeFor, mem_skip_foldl_merge]
  constructor
  · rintro (hempty | ⟨o, ho, hlinter⟩)
    · cases hempty
    · obtain ⟨scope, hscope, rfl⟩ := List.mem_map.mp ho
      obtain ⟨hmem, hmatch⟩ := mem_matching.mp hscope
      exact ⟨scope, hmem, hmatch, hlinter⟩
  · rintro ⟨scope, hmem, hmatch, hlinter⟩
    exact Or.inr ⟨scope.2, List.mem_map_of_mem (mem_matching.mpr ⟨hmem, hmatch⟩), hlinter⟩

theorem skips_of_grows (h : Table.Grows (fun s o => o.Covers s) c.scopes d.scopes)
    (hskips : (c.scopeFor path).skips linter = true) :
    (d.scopeFor path).skips linter = true := by
  obtain ⟨scope, hscope, hmatch, hlinter⟩ := skips_scopeFor_iff_exists.mp hskips
  obtain ⟨grown, hgrown, hcovers⟩ := h.of_mem hscope
  exact skips_scopeFor_iff_exists.mpr ⟨_, hgrown, hmatch, hcovers.skip linter hlinter⟩

/-! ## One preset -/

theorem scopes_mergePreset_grows (c : ResolvedConfig) (name : String) (preset : Configuration) :
    Table.Grows (fun s o => o.Covers s) c.scopes (c.mergePreset name preset).scopes := by
  have hmerge := Table.grows_mergeWith (R := fun s o : ScopeOverride => o.Covers s)
    ScopeOverride.Covers.refl (fun _ _ _ h h' => h'.trans h) ScopeOverride.covers_merge_left
  exact (hmerge _ _).trans (fun _ _ _ h h' => h'.trans h) (hmerge _ _)

theorem ListedOnce.mergePreset (h : c.ListedOnce) (name : String) (preset : Configuration) :
    (c.mergePreset name preset).ListedOnce where
  included := nodup_union h.included _
  excluded := nodup_union h.excluded _
  extensions := nodup_union h.extensions _
  plugins := h.plugins
  inherited := h.inherited.filter _

theorem mergePreset_grows (c : ResolvedConfig) (name : String) (preset : Configuration) :
    c.Grows [name] (c.mergePreset name preset) where
  included := prefix_union _ _
  excluded := prefix_union _ _
  extensions := prefix_union _ _
  plugins := rfl
  inherited := List.filter_congr fun entry _ => by
    by_cases h : entry = name <;> simp [h]
  linterConfig := by
    have hmerged := Value.grows_merge (.object c.linterConfig)
      (.object (preset.linterConfig.getD []))
    rwa [Value.merge_object] at hmerged
  patterns := (scopes_mergePreset_grows c name preset).prefix_names
  skips _ _ hskips := skips_of_grows (scopes_mergePreset_grows c name preset) hskips

/-! ## Any number of presets -/

theorem Grows.refl (c : ResolvedConfig) : c.Grows [] c where
  included := List.prefix_rfl
  excluded := List.prefix_rfl
  extensions := List.prefix_rfl
  plugins := rfl
  inherited := (List.filter_eq_self.mpr fun _ _ => by simp).symm
  linterConfig path := .refl path _
  patterns := List.prefix_rfl
  skips _ _ h := h

theorem Grows.trans {taken taken' : List String} {e : ResolvedConfig} (h : c.Grows taken d)
    (h' : d.Grows taken' e) : c.Grows (taken ++ taken') e where
  included := h.included.trans h'.included
  excluded := h.excluded.trans h'.excluded
  extensions := h.extensions.trans h'.extensions
  plugins := h'.plugins.trans h.plugins
  inherited := by
    rw [h'.inherited, h.inherited, List.filter_filter]
    refine List.filter_congr fun entry _ => ?_
    by_cases htaken : entry ∈ taken <;> simp [htaken]
  linterConfig path := (h.linterConfig path).trans (h'.linterConfig path)
  patterns := h.patterns.trans h'.patterns
  skips path linter hskips := h'.skips path linter (h.skips path linter hskips)

theorem ListedOnce.mergePresets (h : c.ListedOnce) (presets : List (String × Configuration)) :
    (c.mergePresets presets).ListedOnce := by
  induction presets generalizing c with
  | nil => exact h
  | cons preset rest ih => exact ih (h.mergePreset preset.1 preset.2)

theorem grows_mergePresets (c : ResolvedConfig) (presets : List (String × Configuration)) :
    c.Grows (presets.map Prod.fst) (c.mergePresets presets) := by
  induction presets generalizing c with
  | nil => exact .refl c
  | cons preset rest ih => exact (mergePreset_grows c preset.1 preset.2).trans (ih _)

/-- However many presets are brought in, a configuration that lists everything once still does, and
it only gets more. -/
theorem mergePresets_grows (h : c.ListedOnce) (presets : List (String × Configuration)) :
    (c.mergePresets presets).ListedOnce ∧
      c.Grows (presets.map Prod.fst) (c.mergePresets presets) :=
  ⟨h.mergePresets presets, grows_mergePresets c presets⟩

/-- A configuration that inherits two presets, and a name that is left to the engine. -/
def twiceInheriting : ResolvedConfig where
  included := ["src"]
  excluded := ["dist"]
  extensions := [".ts"]
  plugins := ["npm:house"]
  inherited := ["house", "engine", "team"]
  linterConfig := [
    ("size", .object [("limits", .object [("max", .null)]), ("strict", .bool true)])]
  scopes := [("src/**", { skip := some ["size"] })]

/-- Presets that disagree about where there is an object. One of them is not inherited, and one
repeats what it lists. -/
def disagreeingPresets : List (String × Configuration) := [
  ("team", {
    included := some ["lib", "src", "lib"]
    plugins := some ["npm:team"]
    inherited := some ["house"]
    linterConfig := some [
      ("naming", .null),
      ("size", .object [("strict", .object []), ("limits", .object [("min", .null)])])]
    scopes := some [("src/**", { skip := some ["naming"] })] }),
  ("style", { excluded := some ["out", "dist"], skip := some ["quotes"] }),
  ("house", { linterConfig := some [("size", .text "any")] })]

theorem mergePresets_grows_disagreeing_presets :
    twiceInheriting.ListedOnce ∧
      (twiceInheriting.mergePresets disagreeingPresets).ListedOnce ∧
      twiceInheriting.Grows ["team", "style", "house"]
        (twiceInheriting.mergePresets disagreeingPresets) := by
  have h : twiceInheriting.ListedOnce :=
    ⟨by decide, by decide, by decide, by decide, by decide⟩
  exact ⟨h, mergePresets_grows h disagreeingPresets⟩

end ResolvedConfig

end LintFront
