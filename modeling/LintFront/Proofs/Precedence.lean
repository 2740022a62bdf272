import LintFront.Proofs.Ranking

/-!
# Which layer decides

A severity can be set by any layer, for every file or for the files of a pattern. Of all entries
that set a key and match a file exactly one decides it. A higher layer goes before a lower one at
the same pattern; between two patterns that are equally specific, the one that some layer was the
last to bring in goes first, whatever layer that is.

* `Entry.Decides`: the effective severity follows the entry whatever it says.
* `Entry.decides_iff_leads`: an entry decides if and only if it goes before all others.
* `lower_layer_decides_nothing_iff`: when a layer is safe from a lower one.
* `lower_layer_wins_tie`: a layer that is not.
-/

namespace LintFront

open scoped List

/-! ## Entries -/

/-- Where a configuration sets severities: for every file, or for the files of a pattern. -/
inductive Reach
  | everywhere
  | within (pattern : String)
  deriving DecidableEq

def Reach.pattern : Reach → String
  | .everywhere => globalScope
  | .within pattern => pattern

/-- An override with another severity for a key. -/
def ScopeOverride.withSeverity (s : ScopeOverride) (key : String) (severity : Severity) :
    ScopeOverride :=
  { s with severity := some (Table.put (s.severity.getD []) key severity) }

namespace Configuration

/-- The severity that a configuration sets for a key at one place. -/
def severityIn (c : Configuration) (key : String) : Reach → Option Severity
  | .everywhere => (c.severity.getD []).find? key
  | .within pattern => ((c.scopes.getD []).find? pattern).bind (·.severityOf key)

/-- A configuration with another severity for a key at one place. -/
def withSeverity (c : Configuration) (key : String) (severity : Severity) :
    Reach → Configuration
  | .everywhere => { c with severity := some (Table.put (c.severity.getD []) key severity) }
  | .within pattern =>
    { c with
      scopes := some (Table.upsert pattern (fun s => (s.getD {}).withSeverity key severity)
        (c.scopes.getD [])) }

/-- The patterns that a configuration has scopes for. -/
def patterns (c : Configuration) : List String := Table.names (c.scopes.getD [])

end Configuration

/-- The patterns of several layers in the order in which they first come. The pattern of the
settings for every file comes first if no layer has a scope for it. -/
def listedPatterns (layers : List Configuration) : List String :=
  let declared := (layers.flatMap Configuration.patterns).eraseDups
  if globalScope ∈ declared then declared else globalScope :: declared

/-- The severity of a key for a file when nothing but the layers counts. -/
def effectiveSeverity (layers : List Configuration) (path key : String) : Option Severity :=
  ((ResolvedConfig.ofMerged (Configuration.mergeAll layers) []).scopeFor path).severityOf key

/-- What several layers say about a key at a pattern: what they say in their scopes, and for the
pattern of every file also what they say outside of them. -/
def severityAt (layers : List Configuration) (key pattern : String) : Option Severity :=
  (layers.findSome? (·.severityIn key (.within pattern))).or
    (if pattern = globalScope then layers.findSome? (·.severityIn key .everywhere) else none)

/-- A place in one of several layers, the highest of which has the number zero. -/
structure Entry where
  layer : Nat
  reach : Reach
  deriving DecidableEq

namespace Entry

/-- The severity that an entry sets for a key. -/
def severity (layers : List Configuration) (key : String) (e : Entry) : Option Severity :=
  layers[e.layer]?.bind (·.severityIn key e.reach)

/-- An entry sets a key for a file. -/
def Speaks (layers : List Configuration) (path key : String) (e : Entry) : Prop :=
  (e.severity layers key).isSome ∧ globMatches e.reach.pattern (ResolvedConfig.slashed path)

/-- An entry for every file comes after a scope with the same pattern, and an entry comes after
those of higher layers at the same place. -/
def Before (layers : List Configuration) (e e' : Entry) : Prop :=
  Outranks (listedPatterns layers) e.reach.pattern e'.reach.pattern ∨
    e.reach.pattern = e'.reach.pattern ∧
      (e.reach ≠ .everywhere ∧ e'.reach = .everywhere ∨
        e.reach = e'.reach ∧ e.layer < e'.layer)

/-- An entry sets a key for a file before all others that do. -/
def Leads (layers : List Configuration) (path key : String) (e : Entry) : Prop :=
  e.Speaks layers path key ∧ ∀ e' : Entry, e'.Speaks layers path key → e' = e ∨ e.Before layers e'

/-- The effective severity is what the entry says, whatever severity it is given. -/
def Decides (layers : List Configuration) (path key : String) (e : Entry) : Prop :=
  (e.severity layers key).isSome ∧ ∀ s, effectiveSeverity
    (layers.modify e.layer fun c => c.withSeverity key s e.reach) path key = some s

end Entry

/-! ## The order of entries -/

theorem nodup_listedPatterns (layers : List Configuration) : (listedPatterns layers).Nodup := by
  unfold listedPatterns
  dsimp only
  split
  · exact nodup_eraseDups _
  · rename_i h
    exact List.nodup_cons.mpr ⟨h, nodup_eraseDups _⟩

theorem Outranks.asymm {patterns : List String} (h : patterns.Nodup) {p q : String}
    (hpq : Outranks patterns p q) : ¬ Outranks patterns q p := by
  rintro (hlt | ⟨heq, hlisted⟩)
  · rcases hpq with hlt' | ⟨heq, -⟩
    · omega
    · omega
  · rcases hpq with hlt' | ⟨-, hlisted'⟩
    · omega
    · exact not_sublist_swap h hlisted' hlisted

theorem Outranks.ne {patterns : List String} (h : patterns.Nodup) {p q : String}
    (hpq : Outranks patterns p q) : p ≠ q := by
  rintro rfl
  exact hpq.asymm h hpq

namespace Entry

variable {layers : List Configuration} {path key : String} {e e' : Entry}

theorem Before.asymm (h : e.Before layers e') : ¬ e'.Before layers e := by
  have hnodup := nodup_listedPatterns layers
  rintro (hrank' | ⟨heq, hsame'⟩)
  · rcases h with hrank | ⟨heq, -⟩
    · exact hrank.asymm hnodup hrank'
    · exact hrank'.ne hnodup heq.symm
  · rcases h with hrank | ⟨-, hsame⟩
    · exact hrank.ne hnodup heq.symm
    · rcases hsame with ⟨hne, he'⟩ | ⟨hreach, hlt⟩ <;>
        rcases hsame' with ⟨hne', he⟩ | ⟨hreach', hlt'⟩
      · exact hne he
      · exact hne (hreach'.symm.trans he')
      · exact hne' (hreach.symm.trans he)
      · omega

theorem Leads.unique (h : e.Leads layers path key) (h' : e'.Leads layers path key) : e = e' := by
  rcases h.2 e' h'.1 with heq | hbefore
  · exact heq.symm
  · rcases h'.2 e h.1 with heq | hbefore'
    · exact heq
    · exact absurd hbefore' hbefore.asymm

end Entry

/-! ## The severities of merged layers -/

theorem distinct_getD {α : Type} {t : Option (Table α)} (h : ∀ u, t = some u → u.Distinct) :
    Table.Distinct (t.getD []) := by
  cases t with
  | none => exact Table.distinct_nil
  | some u => exact h u rfl

namespace Configuration

theorem severityIn_merge (c : Configuration) {lower : Configuration} (h : lower.WellFormed)
    (key : String) (reach : Reach) :
    (c.merge lower).severityIn key reach =
      (c.severityIn key reach).or (lower.severityIn key reach) := by
  cases reach with
  | everywhere => exact find?_mergeSeverity c.severity h.severity key
  | within pattern =>
    simp only [severityIn, merge, Table.find?_mergeTables _ _ h.scopes]
    cases (c.scopes.getD []).find? pattern with
    | none => simp
    | some a =>
      cases hb : (lower.scopes.getD []).find? pattern with
      | none => simp
      | some b => simp [ScopeOverride.severityOf_merge a (h.of_find? hb)]

theorem severityIn_foldl_merge (c : Configuration) {layers : List Configuration}
    (h : ∀ d ∈ layers, d.WellFormed) (key : String) (reach : Reach) :
    (layers.foldl merge c).severityIn key reach =
      (c.severityIn key reach).or (layers.findSome? (·.severityIn key reach)) := by
  induction layers generalizing c with
  | nil => simp
  | cons head rest ih =>
    rw [List.foldl_cons, ih _ fun d hd => h d (List.mem_cons_of_mem _ hd),
      c.severityIn_merge (h head List.mem_cons_self), Option.or_assoc, List.findSome?_cons]
    cases head.severityIn key reach <;> rfl

theorem severityIn_mergeAll {layers : List Configuration} (h : ∀ d ∈ layers, d.WellFormed)
    (key : String) (reach : Reach) :
    (mergeAll layers).severityIn key reach = layers.findSome? (·.severityIn key reach) := by
  rw [mergeAll, severityIn_foldl_merge _ h]
  cases reach <;> simp [severityIn]

theorem patterns_merge (c lower : Configuration) :
    (c.merge lower).patterns = union c.patterns lower.patterns := by
  cases h : lower.scopes with
  | none => simp [patterns, merge, h, mergeTables, Table.names, union_nil]
  | some t => simp [patterns, merge, h, mergeTables, Table.names_mergeWith]

theorem patterns_mergeAll (layers : List Configuration) :
    (mergeAll layers).patterns = (layers.flatMap patterns).eraseDups := by
  have hfold : ∀ c : Configuration,
      (layers.foldl merge c).patterns = union c.patterns (layers.flatMap patterns) := by
    induction layers with
    | nil => exact fun c => rfl
    | cons head rest ih =>
      intro c
      rw [List.foldl_cons, ih, patterns_merge, List.flatMap_cons, union_append]
  rw [mergeAll, hfold, ← dedupe_eq_eraseDups]
  rfl

end Configuration

/-! ## The scopes of merged layers -/

namespace ResolvedConfig

variable {layers : List Configuration}

theorem distinct_scopes_mergeAll (h : ∀ c ∈ layers, c.WellFormed) :
    Table.Distinct ((Configuration.mergeAll layers).scopes.getD []) :=
  distinct_getD (Configuration.wellFormed_empty.foldl_merge h).scopes

theorem find?_globalScopes (c : Configuration) (key pattern : String) :
    (Table.find? (globalScopes c) pattern).bind (·.severityOf key) =
      if pattern = globalScope then c.severityIn key .everywhere else none := by
  have hseverity : (globalOverride c).severityOf key = c.severityIn key .everywhere := rfl
  unfold globalScopes
  dsimp only
  split
  · rename_i hempty
    have hnone : c.severity.getD [] = [] := by
      simp only [ScopeOverride.isEmpty, globalOverride, Bool.and_eq_true, List.isEmpty_iff]
        at hempty
      exact hempty.1.2
    simp [Configuration.severityIn, hnone]
  · rw [Table.find?_cons]
    by_cases hpattern : pattern = globalScope <;> simp [hpattern, hseverity]

theorem names_globalScopes (c : Configuration) : Table.names (globalScopes c) <+ [globalScope] := by
  unfold globalScopes
  dsimp only
  split
  · exact List.nil_sublist _
  · exact List.Sublist.refl _

/-- The patterns of the resolved scopes are listed as the layers list them. -/
theorem names_scopes_ofMerged (h : ∀ c ∈ layers, c.WellFormed) :
    Table.names (ofMerged (Configuration.mergeAll layers) []).scopes <+ listedPatterns layers := by
  have hnames : Table.names ((Configuration.mergeAll layers).scopes.getD []) =
      (layers.flatMap Configuration.patterns).eraseDups := Configuration.patterns_mergeAll layers
  show Table.names (insertAllLater (globalScopes _) _) <+ _
  rw [names_insertAllLater _ (distinct_scopes_mergeAll h), hnames, listedPatterns]
  have hglobal := (names_globalScopes (Configuration.mergeAll layers)).filter
    (· ∉ (layers.flatMap Configuration.patterns).eraseDups)
  split
  · rename_i hdeclared
    have hnil : [globalScope].filter
        (· ∉ (layers.flatMap Configuration.patterns).eraseDups) = [] := by
      simpa using hdeclared
    rw [hnil, List.sublist_nil] at hglobal
    simpa only [hglobal, List.nil_append] using List.Sublist.refl _
  · exact (hglobal.trans List.filter_sublist).append (List.Sublist.refl _)

theorem wellFormed_globalScopes {c : Configuration} (hc : c.WellFormed) :
    ∀ scope ∈ globalScopes c, scope.2.WellFormed := by
  intro scope hscope
  unfold globalScopes at hscope
  dsimp only at hscope
  split at hscope
  · cases hscope
  · rw [List.mem_singleton.mp hscope]
    exact ⟨hc.severity, by simp [globalOverride]⟩

theorem wellFormed_scopes_mergeAll (h : ∀ c ∈ layers, c.WellFormed) :
    ∀ scope ∈ (Configuration.mergeAll layers).scopes.getD [], scope.2.WellFormed := by
  have hmerged := Configuration.wellFormed_empty.foldl_merge h
  cases hscopes : (Configuration.mergeAll layers).scopes with
  | none => simp
  | some t => exact hmerged.scope t hscopes

theorem wellFormed_scopes_ofMerged (h : ∀ c ∈ layers, c.WellFormed) :
    ∀ scope ∈ (ofMerged (Configuration.mergeAll layers) []).scopes, scope.2.WellFormed := by
  intro scope hscope
  have hdistinct : Table.Distinct (ofMerged (Configuration.mergeAll layers) []).scopes :=
    (names_scopes_ofMerged h).nodup (nodup_listedPatterns layers)
  have hfind := hdistinct.find?_of_mem hscope
  have hglobal := wellFormed_globalScopes (Configuration.wellFormed_empty.foldl_merge h)
  have hdeclared := wellFormed_scopes_mergeAll h
  change Table.find? (insertAllLater (globalScopes _) _) scope.1 = _ at hfind
  rw [find?_insertAllLater _ (distinct_scopes_mergeAll h), Option.merge_eq_some_iff] at hfind
  rcases hfind with ⟨hleft, -⟩ | ⟨-, hright⟩ | ⟨a, b, ha, hb, hab⟩
  · exact hdeclared _ (Table.mem_of_find? hleft)
  · exact hglobal _ (Table.mem_of_find? hright)
  · rw [← hab]
    exact (hdeclared _ (Table.mem_of_find? ha)).merge (hglobal _ (Table.mem_of_find? hb))

theorem find?_scopes_ofMerged (h : ∀ c ∈ layers, c.WellFormed) (key pattern : String) :
    ((ofMerged (Configuration.mergeAll layers) []).scopes.find? pattern).bind
        (·.severityOf key) = severityAt layers key pattern := by
  have hglobal := find?_globalScopes (Configuration.mergeAll layers) key pattern
  rw [severityAt, ← Configuration.severityIn_mergeAll h, ← Configuration.severityIn_mergeAll h,
    ← hglobal]
  show (Table.find? (insertAllLater (globalScopes _) _) pattern).bind _ = _
  rw [find?_insertAllLater _ (distinct_scopes_mergeAll h)]
  simp only [Configuration.severityIn]
  have hwf := wellFormed_globalScopes (Configuration.wellFormed_empty.foldl_merge h)
  cases ha : ((Configuration.mergeAll layers).scopes.getD []).find? pattern with
  | none => simp
  | some a =>
    cases hb : Table.find? (globalScopes (Configuration.mergeAll layers)) pattern with
    | none => simp
    | some b => simp [ScopeOverride.severityOf_merge a (hwf _ (Table.mem_of_find? hb))]

end ResolvedConfig

/-! ## The leading entry -/

namespace Entry

variable {layers : List Configuration} {path key : String} {e : Entry}

/-- The entry that comes first among those with one pattern. -/
theorem exists_first_at (pattern : String) {s : Severity}
    (h : severityAt layers key pattern = some s) :
    ∃ e : Entry, e.reach.pattern = pattern ∧ e.severity layers key = some s ∧
      ∀ e' : Entry, e'.reach.pattern = pattern → (e'.severity layers key).isSome →
        e' = e ∨ (e.reach ≠ .everywhere ∧ e'.reach = .everywhere ∨
          e.reach = e'.reach ∧ e.layer < e'.layer) := by
  unfold severityAt at h
  cases hwithin : layers.findSome? (·.severityIn key (.within pattern)) with
  | some s' =>
    obtain rfl : s' = s := by simpa [hwithin] using h
    obtain ⟨i, hi, hfirst⟩ := exists_index_of_findSome? hwithin
    refine ⟨⟨i, .within pattern⟩, rfl, hi, ?_⟩
    rintro ⟨j, reach⟩ hpattern hsome
    cases reach with
    | everywhere => exact Or.inr (Or.inl ⟨by simp, rfl⟩)
    | within p =>
      obtain rfl : p = pattern := hpattern
      rcases hfirst j hsome with rfl | hlt
      · exact Or.inl rfl
      · exact Or.inr (Or.inr ⟨rfl, hlt⟩)
  | none =>
    rw [hwithin, Option.none_or] at h
    by_cases hglobal : pattern = globalScope
    · subst hglobal
      rw [if_pos rfl] at h
      obtain ⟨i, hi, hfirst⟩ := exists_index_of_findSome? h
      refine ⟨⟨i, .everywhere⟩, rfl, hi, ?_⟩
      rintro ⟨j, reach⟩ hpattern hsome
      cases reach with
      | everywhere =>
        rcases hfirst j hsome with rfl | hlt
        · exact Or.inl rfl
        · exact Or.inr (Or.inr ⟨rfl, hlt⟩)
      | within p =>
        obtain rfl : p = globalScope := hpattern
        obtain ⟨c, hc, hsome⟩ := exists_of_isSome_bind hsome
        rw [List.findSome?_eq_none_iff.mp hwithin c (List.mem_of_getElem? hc)] at hsome
        cases hsome
    · rw [if_neg hglobal] at h
      cases h

theorem isSome_at_of_severity (h : (e.severity layers key).isSome) :
    (severityAt layers key e.reach.pattern).isSome := by
  obtain ⟨i, reach⟩ := e
  obtain ⟨c, hc, hsome⟩ := exists_of_isSome_bind h
  have hfound : (layers.findSome? (·.severityIn key reach)).isSome :=
    List.findSome?_isSome_iff.mpr ⟨c, List.mem_of_getElem? hc, hsome⟩
  rw [severityAt, Option.isSome_or]
  cases reach with
  | everywhere => simp [Reach.pattern, hfound]
  | within p => simp [Reach.pattern, hfound]

/-- What an entry says is said by the scope of its pattern. -/
theorem Speaks.isSome_scope (h : ∀ c ∈ layers, c.WellFormed) (he : e.Speaks layers path key) :
    ((ResolvedConfig.ofMerged (Configuration.mergeAll layers) []).scopes.find?
      e.reach.pattern |>.bind (·.severityOf key)).isSome := by
  rw [ResolvedConfig.find?_scopes_ofMerged h]
  exact isSome_at_of_severity he.1

theorem Speaks.isSome_effective (h : ∀ c ∈ layers, c.WellFormed)
    (he : e.Speaks layers path key) : (effectiveSeverity layers path key).isSome :=
  ResolvedConfig.isSome_severityOf_scopeFor (ResolvedConfig.wellFormed_scopes_ofMerged h) he.2
    (he.isSome_scope h)

/-- The effective severity is what some leading entry says. -/
theorem exists_leads (h : ∀ c ∈ layers, c.WellFormed) {s : Severity}
    (hs : effectiveSeverity layers path key = some s) :
    ∃ e : Entry, e.Leads layers path key ∧ e.severity layers key = some s := by
  have hnames := ResolvedConfig.names_scopes_ofMerged h
  obtain ⟨pattern, hmatch, hat, hothers⟩ := ResolvedConfig.exists_first_scope
    (hnames.nodup (nodup_listedPatterns layers)) (ResolvedConfig.wellFormed_scopes_ofMerged h) hs
  rw [ResolvedConfig.find?_scopes_ofMerged h] at hat
  obtain ⟨e, rfl, hvalue, hfirst⟩ := exists_first_at pattern hat
  refine ⟨e, ⟨⟨by rw [hvalue]; rfl, hmatch⟩, fun e' he' => ?_⟩, hvalue⟩
  rcases hothers _ he'.2 (he'.isSome_scope h) with hpattern | hrank
  · rcases hfirst e' hpattern he'.1 with heq | hsame
    · exact Or.inl heq
    · exact Or.inr (Or.inr ⟨hpattern.symm, hsame⟩)
  · exact Or.inr (Or.inl (hrank.mono hnames))

/-- The effective severity is what the leading entry says. -/
theorem Leads.effectiveSeverity_eq (h : ∀ c ∈ layers, c.WellFormed)
    (he : e.Leads layers path key) :
    effectiveSeverity layers path key = e.severity layers key := by
  obtain ⟨s, hs⟩ := Option.isSome_iff_exists.mp (he.1.isSome_effective h)
  obtain ⟨e', he', hvalue⟩ := exists_leads h hs
  rw [hs, he.unique he', hvalue]

end Entry

/-! ## Another severity -/

theorem ScopeOverride.severityOf_withSeverity (o : ScopeOverride) (key : String) (s : Severity) :
    (o.withSeverity key s).severityOf key = some s := by
  simp [severityOf, withSeverity, Table.put, Table.find?_upsert]

theorem ScopeOverride.WellFormed.withSeverity {o : ScopeOverride} (h : o.WellFormed)
    (key : String) (s : Severity) : (o.withSeverity key s).WellFormed := by
  refine ⟨fun t ht => ?_, h.linterConfig⟩
  obtain rfl := Option.some.inj ht
  exact (distinct_getD h.severity).upsert _ _

namespace Configuration

variable {c : Configuration} {key : String} {reach : Reach}

theorem severityIn_withSeverity (c : Configuration) (key : String) (s : Severity)
    (reach reach' : Reach) :
    (c.withSeverity key s reach).severityIn key reach' =
      if reach' = reach then some s else c.severityIn key reach' := by
  cases reach <;> cases reach' <;> simp only [withSeverity, severityIn, reduceCtorEq, if_false]
  · simp [Table.put, Table.find?_upsert]
  · rename_i p q
    rw [Option.getD_some, Table.find?_upsert]
    by_cases hpq : q = p
    · simp [hpq, ScopeOverride.severityOf_withSeverity]
    · simp [hpq]

theorem patterns_withSeverity (h : (c.severityIn key reach).isSome) (s : Severity) :
    (c.withSeverity key s reach).patterns = c.patterns := by
  cases reach with
  | everywhere => rfl
  | within p =>
    obtain ⟨o, ho, -⟩ := exists_of_isSome_bind h
    have hp : p ∈ Table.names (c.scopes.getD []) :=
      Table.find?_isSome_iff.mp (Option.isSome_iff_exists.mpr ⟨o, ho⟩)
    rw [patterns, withSeverity, Option.getD_some, Table.names_upsert, if_pos hp]
    rfl

theorem WellFormed.withSeverity (hc : c.WellFormed) (key : String) (s : Severity)
    (reach : Reach) : (c.withSeverity key s reach).WellFormed := by
  cases reach with
  | everywhere =>
    refine ⟨fun t ht => ?_, hc.linterConfig, hc.scopes, hc.scope⟩
    obtain rfl := Option.some.inj ht
    exact (distinct_getD hc.severity).upsert _ _
  | within p =>
    have hentries : ∀ entry ∈ c.scopes.getD [], entry.2.WellFormed := by
      cases hscopes : c.scopes with
      | none => simp
      | some t => exact hc.scope t hscopes
    refine ⟨hc.severity, hc.linterConfig, fun t ht => ?_, fun t ht entry hentry => ?_⟩
    · obtain rfl := Option.some.inj ht
      exact (distinct_getD hc.scopes).upsert _ _
    · obtain rfl := Option.some.inj ht
      rcases Table.mem_upsert hentry with hmem | rfl
      · exact hentries entry hmem
      · refine ScopeOverride.WellFormed.withSeverity ?_ key s
        cases hfind : Table.find? (c.scopes.getD []) p with
        | none => exact ⟨by simp, by simp⟩
        | some o => exact hentries _ (Table.mem_of_find? hfind)

end Configuration

namespace Entry

variable {layers : List Configuration} {path key : String} {e : Entry}

/-- The layers with another severity at one entry. -/
def change (layers : List Configuration) (key : String) (e : Entry) (s : Severity) :
    List Configuration :=
  layers.modify e.layer fun c => c.withSeverity key s e.reach

theorem wellFormed_change (h : ∀ c ∈ layers, c.WellFormed) (s : Severity) :
    ∀ c ∈ change layers key e s, c.WellFormed := by
  intro c hc
  obtain ⟨i, hi⟩ := List.mem_iff_getElem?.mp hc
  rw [change, List.getElem?_modify] at hi
  obtain ⟨d, hd, rfl⟩ := Option.map_eq_some_iff.mp hi
  have hdwf := h d (List.mem_of_getElem? hd)
  split
  · exact hdwf.withSeverity key s e.reach
  · exact hdwf

theorem severity_change (h : (e.severity layers key).isSome) (s : Severity) (e' : Entry) :
    e'.severity (change layers key e s) key =
      if e' = e then some s else e'.severity layers key := by
  obtain ⟨c, hc, -⟩ := exists_of_isSome_bind h
  obtain ⟨i, reach⟩ := e
  obtain ⟨j, reach'⟩ := e'
  simp only [severity, change, List.getElem?_modify] at hc ⊢
  by_cases hij : i = j
  · subst hij
    simp [hc, Configuration.severityIn_withSeverity]
  · have hji : ¬ j = i := fun heq => hij heq.symm
    simp [hij, hji]

theorem listedPatterns_change (h : (e.severity layers key).isSome) (s : Severity) :
    listedPatterns (change layers key e s) = listedPatterns layers := by
  obtain ⟨c, hc, hsome⟩ := exists_of_isSome_bind h
  have hmap : (change layers key e s).map Configuration.patterns =
      layers.map Configuration.patterns := by
    refine List.ext_getElem? fun i => ?_
    rw [List.getElem?_map, List.getElem?_map, change, List.getElem?_modify]
    by_cases hi : e.layer = i
    · subst hi
      simp [hc, Configuration.patterns_withSeverity hsome]
    · simp [hi]
  simp only [listedPatterns, List.flatMap_def, hmap]

theorem leads_change_iff (h : (e.severity layers key).isSome) (s : Severity) (e' : Entry) :
    e'.Leads (change layers key e s) path key ↔ e'.Leads layers path key := by
  have hspeaks : ∀ e'' : Entry, e''.Speaks (change layers key e s) path key ↔
      e''.Speaks layers path key := by
    intro e''
    rw [Speaks, Speaks, severity_change h]
    by_cases heq : e'' = e
    · subst heq
      simp [h]
    · simp [heq]
  simp only [Leads, hspeaks, Before, listedPatterns_change h]

/-- Of all entries that set a key for a file, the one before all others decides it. -/
theorem decides_iff_leads (hwf : ∀ c ∈ layers, c.WellFormed) :
    e.Decides layers path key ↔ e.Leads layers path key := by
  constructor
  · rintro ⟨hsome, hfollows⟩
    -- Whoever leads has the severity that the entry is given, whichever that is.
    have hleader : ∀ s, ∃ e' : Entry, e'.Leads layers path key ∧
        (e' = e ∨ e'.severity layers key = some s) := by
      intro s
      obtain ⟨e', he', hvalue⟩ := exists_leads (wellFormed_change hwf s) (hfollows s)
      refine ⟨e', (leads_change_iff hsome s e').mp he', ?_⟩
      rw [severity_change hsome] at hvalue
      by_cases heq : e' = e
      · exact Or.inl heq
      · rw [if_neg heq] at hvalue
        exact Or.inr hvalue
    obtain ⟨first, hfirst, hoff⟩ := hleader .off
    obtain ⟨second, hsecond, herror⟩ := hleader .error
    obtain rfl := hfirst.unique hsecond
    rcases hoff with rfl | hoff
    · exact hfirst
    · rcases herror with rfl | herror
      · exact hfirst
      · rw [hoff] at herror
        cases herror
  · intro hleads
    refine ⟨hleads.1.1, fun s => ?_⟩
    have hchanged := (leads_change_iff hleads.1.1 s e).mpr hleads
    have heffective := hchanged.effectiveSeverity_eq (wellFormed_change hwf s)
    rw [severity_change hleads.1.1, if_pos rfl] at heffective
    exact heffective

end Entry

/-! ## Higher and lower layers -/

/-- A place of a lower layer goes before one of a higher layer although it is not more specific:
its pattern is listed later, or it is the scope of every file and the other one is no scope. -/
def Overtakes (layers : List Configuration) (reach higher : Reach) : Prop :=
  specificity reach.pattern = specificity higher.pattern ∧
    ([higher.pattern, reach.pattern] <+ listedPatterns layers ∨
      higher = .everywhere ∧ reach = .within globalScope)

/-- A layer that sets a key for a file is safe from what a lower layer says as specifically or
less so, if and only if each place of the lower layer that goes before it is itself preceded. -/
theorem lower_layer_decides_nothing_iff {layers : List Configuration}
    (hwf : ∀ c ∈ layers, c.WellFormed) {path key : String} {e : Entry}
    (he : e.Speaks layers path key) {lower : Nat} (hlower : e.layer < lower) :
    (∀ reach : Reach, specificity reach.pattern ≤ specificity e.reach.pattern →
      ¬ (⟨lower, reach⟩ : Entry).Decides layers path key) ↔
    ∀ reach : Reach, (⟨lower, reach⟩ : Entry).Speaks layers path key →
      Overtakes layers reach e.reach →
      ∃ e' : Entry, e'.Speaks layers path key ∧ e'.Before layers ⟨lower, reach⟩ := by
  constructor
  · intro hnone reach hspeaks hovertakes
    obtain ⟨s, hs⟩ := Option.isSome_iff_exists.mp (he.isSome_effective hwf)
    obtain ⟨first, hfirst, -⟩ := Entry.exists_leads hwf hs
    refine ⟨first, hfirst.1, ?_⟩
    rcases hfirst.2 _ hspeaks with rfl | hbefore
    · exact absurd ((Entry.decides_iff_leads hwf).mpr hfirst)
        (hnone reach (Nat.le_of_eq hovertakes.1))
    · exact hbefore
  · intro hpreceded reach hspecific hdecides
    have hleads := (Entry.decides_iff_leads hwf).mp hdecides
    have hovertakes : Overtakes layers reach e.reach := by
      rcases hleads.2 e he with rfl | (hlt | ⟨heq, hlisted⟩) | ⟨hpattern, hsame⟩
      · exact absurd hlower (Nat.lt_irrefl _)
      · exact absurd hlt (Nat.not_lt_of_le hspecific)
      · exact ⟨heq, Or.inl hlisted⟩
      · rcases hsame with ⟨hscope, hglobal⟩ | ⟨-, hlt⟩
        · refine ⟨congrArg specificity hpattern, Or.inr ⟨hglobal, ?_⟩⟩
          rw [hglobal] at hpattern
          cases reach with
          | everywhere => exact absurd rfl hscope
          | within p => exact congrArg Reach.within hpattern
        · exact absurd hlower (Nat.lt_asymm hlt)
    obtain ⟨e', hspeaks, hbefore⟩ := hpreceded reach hleads.1 hovertakes
    rcases hleads.2 e' hspeaks with rfl | hbefore'
    · exact hbefore.asymm hbefore
    · exact hbefore.asymm hbefore'

/-- A layer that sets one key for the files of one pattern. -/
def singleScope (pattern key : String) (s : Severity) : Configuration :=
  { scopes := some [(pattern, { severity := some [(key, s)] })] }

theorem wellFormed_singleScope (pattern key : String) (s : Severity) :
    (singleScope pattern key s).WellFormed := by
  refine ⟨by simp [singleScope], by simp [singleScope], ?_, ?_⟩
  · simp [singleScope, Table.Distinct, Table.names]
  · rintro t ⟨⟩ entry hentry
    rw [List.mem_singleton.mp hentry]
    exact ⟨by simp [Table.Distinct, Table.names], by simp⟩

/-- Two patterns that are equally specific, one in each of two layers. -/
def tiedLayers : List Configuration :=
  [singleScope "src/**" "naming" .off, singleScope "src/*.ts" "naming" .error]

theorem wellFormed_tiedLayers : ∀ c ∈ tiedLayers, c.WellFormed := by
  simp [tiedLayers, wellFormed_singleScope]

/-- The lower one of two layers wins a tie with a pattern that the higher one does not have. -/
theorem lower_layer_wins_tie :
    (∀ c ∈ tiedLayers, c.WellFormed) ∧
      (⟨0, .within "src/**"⟩ : Entry).Speaks tiedLayers "src/a.ts" "naming" ∧
      specificity "src/*.ts" ≤ specificity "src/**" ∧
      (⟨1, .within "src/*.ts"⟩ : Entry).Decides tiedLayers "src/a.ts" "naming" := by
  refine ⟨wellFormed_tiedLayers, ⟨by decide +kernel, by decide +kernel⟩, by decide +kernel,
    by decide +kernel, fun s => ?_⟩
  cases s <;> decide +kernel

/-- A third layer with a more specific pattern keeps the second one from deciding. -/
theorem lower_layer_decides_nothing_below_file :
    (∀ c ∈ tiedLayers ++ [singleScope "src/a.ts" "naming" .warn], c.WellFormed) ∧
      (⟨0, .within "src/**"⟩ : Entry).Speaks
        (tiedLayers ++ [singleScope "src/a.ts" "naming" .warn]) "src/a.ts" "naming" ∧
      ∀ reach : Reach, specificity reach.pattern ≤ specificity "src/**" →
        ¬ (⟨1, reach⟩ : Entry).Decides
          (tiedLayers ++ [singleScope "src/a.ts" "naming" .warn]) "src/a.ts" "naming" := by
  have hwf : ∀ c ∈ tiedLayers ++ [singleScope "src/a.ts" "naming" .warn], c.WellFormed := by
    simp [tiedLayers, wellFormed_singleScope]
  have hhigh : (⟨0, .within "src/**"⟩ : Entry).Speaks
      (tiedLayers ++ [singleScope "src/a.ts" "naming" .warn]) "src/a.ts" "naming" :=
    ⟨by decide +kernel, by decide +kernel⟩
  refine ⟨hwf, hhigh, (lower_layer_decides_nothing_iff hwf hhigh (by decide)).mpr ?_⟩
  intro reach hspeaks hovertakes
  refine ⟨⟨2, .within "src/a.ts"⟩, ⟨by decide +kernel, by decide +kernel⟩, Or.inl (Or.inl ?_)⟩
  show specificity reach.pattern < specificity "src/a.ts"
  rw [hovertakes.1]
  decide +kernel

end LintFront
