import LintFront.Proofs.Value

/-!
# What layers mean together

Layers are merged one after the other, the highest first. What comes out can be said without any
order of steps: each setting is read off all layers at once.

* `Configuration.WellFormed`: the tables of a configuration hold each name once.
* `Configuration.joined`: the meaning of several layers, setting by setting.
* `Configuration.mergeAll_eq_joined`: merging layers one after the other gives that meaning.
-/

namespace LintFront

/-- The tables of an override hold each name once. -/
structure ScopeOverride.WellFormed (s : ScopeOverride) : Prop where
  severity : ∀ t, s.severity = some t → Table.Distinct t
  linterConfig : ∀ t, s.linterConfig = some t → (Value.object t).WellFormed

/-- The tables of a configuration hold each name once. -/
structure Configuration.WellFormed (c : Configuration) : Prop where
  severity : ∀ t, c.severity = some t → Table.Distinct t
  linterConfig : ∀ t, c.linterConfig = some t → (Value.object t).WellFormed
  scopes : ∀ t, c.scopes = some t → Table.Distinct t
  scope : ∀ t, c.scopes = some t → ∀ entry ∈ t, entry.2.WellFormed

theorem Configuration.WellFormed.of_find? {c : Configuration} (h : c.WellFormed)
    {pattern : String} {s : ScopeOverride} (hs : (c.scopes.getD []).find? pattern = some s) :
    s.WellFormed := by
  cases hscopes : c.scopes with
  | none => simp [hscopes] at hs
  | some t =>
    rw [hscopes] at hs
    exact h.scope t hscopes _ (Table.mem_of_find? hs)

/-! ## What merging keeps -/

/-- Tables that hold each name once, and only values of some kind, are merged into such a table. -/
theorem mergeTables_keeps {α : Type} {P : α → Prop} {f : α → α → α} {t u v : Option (Table α)}
    (ht : ∀ a, t = some a → Table.Distinct a ∧ ∀ entry ∈ a, P entry.2)
    (hu : ∀ b, u = some b → Table.Distinct b ∧ ∀ entry ∈ b, P entry.2)
    (hf : ∀ a b, P a → P b → P (f a b)) (hv : mergeTables f t u = v) :
    ∀ c, v = some c → Table.Distinct c ∧ ∀ entry ∈ c, P entry.2 := by
  subst hv
  cases u with
  | none => exact ht
  | some b =>
    intro c hc
    obtain rfl := Option.some.inj hc
    have ha : Table.Distinct (t.getD []) ∧ ∀ entry ∈ t.getD [], P entry.2 := by
      cases t with
      | none => exact ⟨Table.distinct_nil, by simp⟩
      | some a => exact ht a rfl
    obtain ⟨hb, hbP⟩ := hu b rfl
    refine ⟨ha.1.mergeWith f b, fun entry hentry => ?_⟩
    rcases Table.find?_of_mem_mergeWith ha.1 hb hentry with hleft | hright | ⟨x, y, hx, hy, hxy⟩
    · exact ha.2 _ (Table.mem_of_find? hleft)
    · exact hbP _ (Table.mem_of_find? hright)
    · rw [← hxy]
      exact hf x y (ha.2 _ (Table.mem_of_find? hx)) (hbP _ (Table.mem_of_find? hy))

theorem distinct_mergeSeverity {t u : Option (Table Severity)}
    (ht : ∀ a, t = some a → Table.Distinct a) (hu : ∀ b, u = some b → Table.Distinct b) :
    ∀ c, mergeTables keepFirst t u = some c → Table.Distinct c := fun c hc =>
  (mergeTables_keeps (P := fun _ => True) (fun a ha => ⟨ht a ha, by simp⟩)
    (fun b hb => ⟨hu b hb, by simp⟩) (fun _ _ _ _ => trivial) hc c rfl).1

theorem wellFormed_mergeOptions {t u : Option (Table Value)}
    (ht : ∀ a, t = some a → (Value.object a).WellFormed)
    (hu : ∀ b, u = some b → (Value.object b).WellFormed) :
    ∀ c, mergeTables Value.merge t u = some c → (Value.object c).WellFormed := fun c hc =>
  Value.wellFormed_object_iff.mpr
    (mergeTables_keeps (fun a ha => Value.wellFormed_object_iff.mp (ht a ha))
      (fun b hb => Value.wellFormed_object_iff.mp (hu b hb)) (fun _ _ => Value.WellFormed.merge)
      hc c rfl)

theorem ScopeOverride.WellFormed.merge {s lower : ScopeOverride} (hs : s.WellFormed)
    (hlower : lower.WellFormed) : (s.merge lower).WellFormed where
  severity := distinct_mergeSeverity hs.severity hlower.severity
  linterConfig := wellFormed_mergeOptions hs.linterConfig hlower.linterConfig

namespace Configuration

theorem wellFormed_empty : WellFormed {} := ⟨by simp, by simp, by simp, by simp⟩

theorem WellFormed.merge {c lower : Configuration} (hc : c.WellFormed)
    (hlower : lower.WellFormed) : (c.merge lower).WellFormed := by
  have hscopes : ∀ t, (c.merge lower).scopes = some t →
      Table.Distinct t ∧ ∀ entry ∈ t, entry.2.WellFormed := fun t ht =>
    mergeTables_keeps (fun a ha => ⟨hc.scopes a ha, hc.scope a ha⟩)
      (fun b hb => ⟨hlower.scopes b hb, hlower.scope b hb⟩)
      (fun _ _ => ScopeOverride.WellFormed.merge) ht t rfl
  exact ⟨distinct_mergeSeverity hc.severity hlower.severity,
    wellFormed_mergeOptions hc.linterConfig hlower.linterConfig,
    fun t ht => (hscopes t ht).1, fun t ht => (hscopes t ht).2⟩

theorem WellFormed.foldl_merge {c : Configuration} (hc : c.WellFormed)
    {layers : List Configuration} (h : ∀ d ∈ layers, d.WellFormed) :
    (layers.foldl Configuration.merge c).WellFormed := by
  induction layers generalizing c with
  | nil => exact hc
  | cons head rest ih =>
    exact ih (hc.merge (h head List.mem_cons_self)) fun d hd => h d (List.mem_cons_of_mem _ hd)

end Configuration

/-! ## The meaning of several layers -/

/-- The overrides that several layers give a pattern, the highest first, as one. -/
def ScopeOverride.joined (s : ScopeOverride) (below : List ScopeOverride) : ScopeOverride where
  skip := joinLists ((s :: below).map ScopeOverride.skip)
  severity := Table.joinOptional (fun value _ => value) ((s :: below).map ScopeOverride.severity)
  linterConfig := Table.joinOptional Value.deep ((s :: below).map ScopeOverride.linterConfig)

/-- Several layers, the highest first, as one. -/
def Configuration.joined (layers : List Configuration) : Configuration where
  schema := layers.findSome? Configuration.schema
  root := layers.findSome? Configuration.root
  included := joinLists (layers.map Configuration.included)
  excluded := joinLists (layers.map Configuration.excluded)
  extensions := joinLists (layers.map Configuration.extensions)
  plugins := joinLists (layers.map Configuration.plugins)
  inherited := joinLists (layers.map Configuration.inherited)
  linterConfig := Table.joinOptional Value.deep (layers.map Configuration.linterConfig)
  skip := joinLists (layers.map Configuration.skip)
  severity := Table.joinOptional (fun value _ => value) (layers.map Configuration.severity)
  scopes := Table.joinOptional ScopeOverride.joined (layers.map Configuration.scopes)

/-- An override with each linter listed once. -/
def ScopeOverride.listedOnce (s : ScopeOverride) : ScopeOverride :=
  { s with skip := s.skip.map List.eraseDups }

/-- A configuration whose overrides list each linter once. -/
def Configuration.scopesListedOnce (c : Configuration) : Configuration :=
  { c with scopes := c.scopes.map (List.map fun entry => (entry.1, entry.2.listedOnce)) }

/-! ## Settings of one kind -/

theorem foldl_or {α β : Type} (f : α → Option β) (a : Option β) (list : List α) :
    (list.map f).foldl Option.or a = a.or (list.findSome? f) := by
  induction list generalizing a with
  | nil => simp
  | cons head rest ih =>
    rw [List.map_cons, List.foldl_cons, ih, List.findSome?_cons, Option.or_assoc]
    cases f head <;> rfl

theorem unionOption_none_left (a : Option (List String)) :
    unionOption none a = a.map List.eraseDups := by
  cases a with
  | none => rfl
  | some a => exact congrArg some (dedupe_eq_eraseDups a)

theorem foldl_unionOption_assoc (a b : Option (List String)) (lists : List (Option (List String))) :
    lists.foldl unionOption (unionOption a b) = unionOption a (lists.foldl unionOption b) := by
  induction lists generalizing b with
  | nil => rfl
  | cons head rest ih => rw [List.foldl_cons, unionOption_assoc, ih, List.foldl_cons]

/-- Lists joined one after the other into the highest one, up to repeats in that one. -/
theorem eraseDups_foldl_unionOption (a : Option (List String))
    (lists : List (Option (List String))) :
    (lists.foldl unionOption a).map List.eraseDups = joinLists (a :: lists) := by
  rw [← unionOption_none_left, ← foldl_unionOption_assoc, ← foldl_unionOption, List.foldl_cons]

namespace Table

variable {α : Type}

theorem mergeTables_none_left (f : α → α → α) {t : Option (Table α)}
    (h : ∀ u, t = some u → u.Distinct) : mergeTables f none t = t := by
  cases t with
  | none => rfl
  | some u => exact congrArg some (mergeWith_nil_left f (h u rfl))

/-- Optional tables brought one after the other into the highest one. -/
theorem foldl_mergeTables_cons (f : α → α → α) {t : Option (Table α)}
    {tables : List (Option (Table α))} (h : ∀ u, some u ∈ t :: tables → u.Distinct) :
    tables.foldl (mergeTables f) t =
      joinOptional (fun value below => below.foldl f value) (t :: tables) := by
  have ht : ∀ u, t = some u → u.Distinct := fun u hu => h u (by simp [hu])
  rw [← foldl_mergeTables f h, List.foldl_cons, mergeTables_none_left f ht]

theorem joinOptional_congr {f g : α → List α → α} {tables : List (Option (Table α))}
    (h : ∀ value below, (∀ v ∈ value :: below, ∃ t name, some t ∈ tables ∧ (name, v) ∈ t) →
      f value below = g value below) : joinOptional f tables = joinOptional g tables := by
  have hjoin : join f (tables.filterMap id) = join g (tables.filterMap id) := by
    refine join_congr fun name value below hvalues => h value below fun v hv => ?_
    rw [← hvalues] at hv
    obtain ⟨t, ht, hfind⟩ := List.mem_filterMap.mp hv
    obtain ⟨_, hmem, rfl⟩ := List.mem_filterMap.mp ht
    exact ⟨t, name, hmem, mem_of_find? hfind⟩
  unfold joinOptional
  cases hpresent : tables.filterMap id with
  | nil => rfl
  | cons head rest => rw [hpresent] at hjoin; exact congrArg some hjoin

theorem map_join (g : α → α) (f : α → List α → α) (tables : List (Table α)) :
    (join f tables).map (fun entry => (entry.1, g entry.2)) =
      join (fun value below => g (f value below)) tables := by
  rw [join, List.map_filterMap, join]
  congr 1
  funext name
  cases tables.filterMap (find? · name) <;> rfl

theorem map_joinOptional (g : α → α) (f : α → List α → α) (tables : List (Option (Table α))) :
    (joinOptional f tables).map (List.map fun entry => (entry.1, g entry.2)) =
      joinOptional (fun value below => g (f value below)) tables := by
  unfold joinOptional
  cases tables.filterMap id with
  | nil => rfl
  | cons head rest => exact congrArg some (map_join g f (head :: rest))

end Table

theorem foldl_keepFirst {α : Type} (value : α) (below : List α) :
    below.foldl keepFirst value = value := by
  induction below with
  | nil => rfl
  | cons head rest ih => exact ih

theorem foldl_mergeSeverity {t : Option (Table Severity)} {tables : List (Option (Table Severity))}
    (h : ∀ u, some u ∈ t :: tables → u.Distinct) :
    tables.foldl (mergeTables keepFirst) t =
      Table.joinOptional (fun value _ => value) (t :: tables) := by
  rw [Table.foldl_mergeTables_cons keepFirst h]
  simp only [foldl_keepFirst]

theorem foldl_mergeOptions {t : Option (Table Value)} {tables : List (Option (Table Value))}
    (h : ∀ u, some u ∈ t :: tables → (Value.object u).WellFormed) :
    tables.foldl (mergeTables Value.merge) t = Table.joinOptional Value.deep (t :: tables) := by
  rw [Table.foldl_mergeTables_cons _ fun u hu => (h u hu).distinct rfl]
  refine Table.joinOptional_congr fun value below hvalues => ?_
  have hwf : ∀ v ∈ value :: below, v.WellFormed := by
    intro v hv
    obtain ⟨u, name, hu, hmem⟩ := hvalues v hv
    exact (h u hu).of_find? rfl (((h u hu).distinct rfl).find?_of_mem hmem)
  exact Value.foldl_merge (hwf value List.mem_cons_self)
    fun w hw => hwf w (List.mem_cons_of_mem _ hw)

/-! ## Overrides and configurations -/

theorem ScopeOverride.foldl_merge (s : ScopeOverride) (below : List ScopeOverride) :
    below.foldl merge s =
      ⟨(below.map skip).foldl unionOption s.skip,
        (below.map severity).foldl (mergeTables keepFirst) s.severity,
        (below.map linterConfig).foldl (mergeTables Value.merge) s.linterConfig⟩ := by
  induction below generalizing s with
  | nil => rfl
  | cons head rest ih => rw [List.foldl_cons, ih]; rfl

theorem ScopeOverride.listedOnce_foldl_merge {s : ScopeOverride} {below : List ScopeOverride}
    (h : ∀ o ∈ s :: below, o.WellFormed) : (below.foldl merge s).listedOnce = joined s below := by
  have hseverity : ∀ u, some u ∈ s.severity :: below.map severity → Table.Distinct u := by
    intro u hu
    rw [← List.map_cons (f := severity)] at hu
    obtain ⟨o, ho, hou⟩ := List.mem_map.mp hu
    exact (h o ho).severity u hou
  have hoptions : ∀ u, some u ∈ s.linterConfig :: below.map linterConfig →
      (Value.object u).WellFormed := by
    intro u hu
    rw [← List.map_cons (f := linterConfig)] at hu
    obtain ⟨o, ho, hou⟩ := List.mem_map.mp hu
    exact (h o ho).linterConfig u hou
  rw [foldl_merge, listedOnce, joined, eraseDups_foldl_unionOption, foldl_mergeSeverity hseverity,
    foldl_mergeOptions hoptions]
  rfl

namespace Configuration

theorem foldl_merge (c : Configuration) (layers : List Configuration) :
    layers.foldl merge c =
      { schema := (layers.map schema).foldl Option.or c.schema
        root := (layers.map root).foldl Option.or c.root
        included := (layers.map included).foldl unionOption c.included
        excluded := (layers.map excluded).foldl unionOption c.excluded
        extensions := (layers.map extensions).foldl unionOption c.extensions
        plugins := (layers.map plugins).foldl unionOption c.plugins
        inherited := (layers.map inherited).foldl unionOption c.inherited
        linterConfig := (layers.map linterConfig).foldl (mergeTables Value.merge) c.linterConfig
        skip := (layers.map skip).foldl unionOption c.skip
        severity := (layers.map severity).foldl (mergeTables keepFirst) c.severity
        scopes := (layers.map scopes).foldl (mergeTables ScopeOverride.merge) c.scopes } := by
  induction layers generalizing c with
  | nil => rfl
  | cons head rest ih => rw [List.foldl_cons, ih]; rfl

/-- The scopes of merged layers: each pattern has the overrides of all layers. -/
theorem listedOnce_foldl_mergeScopes {layers : List Configuration}
    (h : ∀ c ∈ layers, c.WellFormed) :
    ((layers.map scopes).foldl (mergeTables ScopeOverride.merge) none).map
        (List.map fun entry => (entry.1, entry.2.listedOnce)) =
      Table.joinOptional ScopeOverride.joined (layers.map scopes) := by
  have hdistinct : ∀ t, some t ∈ layers.map scopes → Table.Distinct t := by
    intro t ht
    obtain ⟨c, hc, hct⟩ := List.mem_map.mp ht
    exact (h c hc).scopes t hct
  rw [Table.foldl_mergeTables _ hdistinct, Table.map_joinOptional]
  refine Table.joinOptional_congr fun s below hvalues => ?_
  refine ScopeOverride.listedOnce_foldl_merge fun o ho => ?_
  obtain ⟨t, name, ht, hmem⟩ := hvalues o ho
  obtain ⟨c, hc, hct⟩ := List.mem_map.mp ht
  exact (h c hc).scope t hct _ hmem

/-- Layers merged one after the other come to their joint meaning, setting by setting. A linter may
be listed more than once in an override, as it is in the highest one. -/
theorem mergeAll_eq_joined {layers : List Configuration} (h : ∀ c ∈ layers, c.WellFormed) :
    (mergeAll layers).scopesListedOnce = joined layers := by
  have hseverity : ∀ t, some t ∈ none :: layers.map severity → Table.Distinct t := by
    intro t ht
    obtain ⟨c, hc, hct⟩ := List.mem_map.mp (List.mem_of_ne_of_mem (by simp) ht)
    exact (h c hc).severity t hct
  have hoptions : ∀ t, some t ∈ none :: layers.map linterConfig →
      (Value.object t).WellFormed := by
    intro t ht
    obtain ⟨c, hc, hct⟩ := List.mem_map.mp (List.mem_of_ne_of_mem (by simp) ht)
    exact (h c hc).linterConfig t hct
  rw [mergeAll, foldl_merge, scopesListedOnce]
  simp only [foldl_or, foldl_unionOption, listedOnce_foldl_mergeScopes h,
    foldl_mergeSeverity hseverity, foldl_mergeOptions hoptions]
  rfl

/-- The middle layer has a text where the others have objects, and repeats what they list. -/
def objectAroundText : List Configuration := [
  { linterConfig := some [("naming", .object [("case", .object [("style", .text "camel")])])]
    scopes := some [("tests/**", { skip := some ["naming", "naming"] })] },
  { root := some true
    linterConfig := some [("naming", .object [("case", .text "any"), ("length", .null)])]
    severity := some [("naming/long", .warn)]
    scopes := some [("lib/**", {}), ("tests/**", { skip := some ["similarity", "naming"] })] },
  { root := some false
    linterConfig :=
      some [("naming", .object [("case", .object [("style", .null), ("max", .null)])])]
    severity := some [("naming/short", .off), ("naming/long", .error)] }]

theorem mergeAll_eq_joined_object_around_text :
    (∀ c ∈ objectAroundText, c.WellFormed) ∧
      (mergeAll objectAroundText).scopesListedOnce = joined objectAroundText := by
  have hvalues : ∀ c ∈ objectAroundText, ∀ t, c.linterConfig = some t →
      (Value.object t).WellFormed := by
    simp [objectAroundText, Value.wellFormed_object_iff, Value.WellFormed.null,
      Value.WellFormed.text, Table.Distinct, Table.names]
  have h : ∀ c ∈ objectAroundText, c.WellFormed := by
    intro c hc
    refine ⟨?_, hvalues c hc, ?_, ?_⟩
    · revert c
      simp [objectAroundText, Table.Distinct, Table.names]
    · revert c
      simp [objectAroundText, Table.Distinct, Table.names]
    · have hskip (skip : Option (List String)) : ScopeOverride.WellFormed { skip } :=
        ⟨by simp, by simp⟩
      revert c
      simp only [objectAroundText, List.forall_mem_cons, List.not_mem_nil, false_imp_iff,
        implies_true, and_true, Option.some.injEq, forall_eq', hskip, reduceCtorEq]
  exact ⟨h, mergeAll_eq_joined h⟩

end Configuration

end LintFront
