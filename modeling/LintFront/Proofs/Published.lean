import LintFront.Proofs.Effective

/-!
# Presets that plugins publish

A preset of a plugin is brought in below everything that has been resolved. At a pattern that has a
scope, it comes below that scope. A pattern that has none comes in at the end, where it goes before
all scopes that are as specific.

* `ResolvedConfig.PresetDecides`: what a file is set to follows a place of the preset whatever it
  says there.
* `ResolvedConfig.presetDecides_iff_comesIn`: a place decides if and only if what goes before it
  leaves the setting open.
* `ResolvedConfig.preset_decides_nothing_iff`: when a scope is safe from a preset.
* `ResolvedConfig.preset_wins_tie`: a scope that is not.
-/

namespace LintFront

open scoped List

/-! ## Places of a preset -/

namespace Configuration

/-- The override that a configuration has at one place. -/
def overrideIn (p : Configuration) : Reach → Option ScopeOverride
  | .everywhere => Table.find? (ResolvedConfig.globalScopes p) globalScope
  | .within pattern => Table.find? (p.scopes.getD []) pattern

/-- The override that comes in right below another one of the same pattern. -/
def overrideBelow (p : Configuration) : Reach → Option ScopeOverride
  | .everywhere => Table.find? (p.scopes.getD []) globalScope
  | .within _ => none

/-- How far a configuration leads to a setting at one place. -/
def trailIn (p : Configuration) (setting : Setting) (reach : Reach) : Trail :=
  .inside (·.trail setting) (p.overrideIn reach)

/-- A configuration with something else for a setting at one place. -/
def put (p : Configuration) (setting : Setting) (choice : setting.Choice) : Reach → Configuration
  | .everywhere =>
    let s := (ResolvedConfig.globalOverride p).put setting choice
    { p with skip := s.skip, severity := s.severity }
  | .within pattern =>
    { p with
      scopes := some (Table.upsert pattern (fun present => (present.getD {}).put setting choice)
        (p.scopes.getD [])) }

end Configuration

namespace ResolvedConfig

/-- What a place of a preset comes in below at its own pattern. -/
def overrideAbove (c : ResolvedConfig) (p : Configuration) : Reach → Option ScopeOverride
  | .everywhere => Table.find? c.scopes globalScope
  | .within pattern =>
    (Table.find? c.scopes pattern).merge ScopeOverride.merge
      (Table.find? (globalScopes p) pattern)

/-- The preset says something at the place, and what a file is set to is that, whatever it is. -/
def PresetDecides (c : ResolvedConfig) (name : String) (p : Configuration) (path : String)
    (setting : Setting) (reach : Reach) : Prop :=
  (p.trailIn setting reach).value?.isSome ∧ ∀ choice : setting.Choice,
    (c.mergePreset name (p.put setting choice reach)).effective path setting = some choice.value

/-- The preset says something at the place, for files among which is the given one, and neither the
scopes that go before its pattern nor what is above it at the pattern keep it out. -/
def ComesIn (c : ResolvedConfig) (name : String) (p : Configuration) (path : String)
    (setting : Setting) (reach : Reach) : Prop :=
  globMatches reach.pattern (slashed path) = true ∧
    ∃ depth value, p.trailIn setting reach = .found depth value ∧
      (((c.mergePreset name p).scopeBefore path reach.pattern).trail setting).Admits depth ∧
      (Trail.inside (·.trail setting) (c.overrideAbove p reach)).Admits depth

/-- A place of a preset goes before a scope although it is not more specific: its pattern is listed
later. -/
def PresetOvertakes (c : ResolvedConfig) (name : String) (p : Configuration) (reach : Reach)
    (pattern : String) : Prop :=
  specificity reach.pattern = specificity pattern ∧
    [pattern, reach.pattern] <+ Table.names (c.mergePreset name p).scopes

variable {c d : ResolvedConfig} {name path : String} {p : Configuration} {setting : Setting}
  {reach : Reach}

/-! ## The scopes with a preset -/

theorem distinct_globalScopes (p : Configuration) : Table.Distinct (globalScopes p) :=
  (names_globalScopes p).nodup (by simp)

theorem distinct_scopes_getD (hp : p.WellFormed) : Table.Distinct (p.scopes.getD []) :=
  distinct_getD hp.scopes

theorem wellFormed_of_find?_globalScopes (hp : p.WellFormed) {pattern : String}
    {s : ScopeOverride} (hs : Table.find? (globalScopes p) pattern = some s) : s.WellFormed :=
  wellFormed_globalScopes hp _ (Table.mem_of_find? hs)

theorem find?_mergePreset (hp : p.WellFormed) (pattern : String) :
    Table.find? (c.mergePreset name p).scopes pattern =
      ((Table.find? c.scopes pattern).merge ScopeOverride.merge
        (Table.find? (globalScopes p) pattern)).merge ScopeOverride.merge
          (Table.find? (p.scopes.getD []) pattern) := by
  show Table.find? (Table.mergeWith _ (Table.mergeWith _ _ _) _) pattern = _
  rw [Table.find?_mergeWith _ _ (distinct_scopes_getD hp),
    Table.find?_mergeWith _ _ (distinct_globalScopes p)]

theorem names_mergePreset :
    Table.names (c.mergePreset name p).scopes =
      union (union (Table.names c.scopes) (Table.names (globalScopes p))) p.patterns := by
  show Table.names (Table.mergeWith _ (Table.mergeWith _ _ _) _) = _
  rw [Table.names_mergeWith, Table.names_mergeWith]
  rfl

/-- The patterns that are there before keep their places. -/
theorem names_sublist_mergePreset :
    Table.names c.scopes <+ Table.names (c.mergePreset name p).scopes := by
  rw [names_mergePreset, union_eq_append, union_eq_append, List.append_assoc]
  exact List.sublist_append_left _ _

theorem WellFormed.mergePreset (hc : c.WellFormed) (hp : p.WellFormed) (name : String) :
    (c.mergePreset name p).WellFormed := by
  have hdistinct : Table.Distinct (c.mergePreset name p).scopes :=
    (hc.distinct.mergeWith _ _).mergeWith _ _
  refine ⟨hdistinct, fun scope hscope => ?_⟩
  have hfind := hdistinct.find?_of_mem hscope
  rw [find?_mergePreset hp] at hfind
  have habove : ∀ s, (Table.find? c.scopes scope.1).merge ScopeOverride.merge
      (Table.find? (globalScopes p) scope.1) = some s → s.WellFormed := by
    intro s hs
    rcases Option.merge_eq_some_iff.mp hs with ⟨hleft, -⟩ | ⟨-, hright⟩ | ⟨a, b, ha, hb, rfl⟩
    · exact hc.of_find? hleft
    · exact wellFormed_of_find?_globalScopes hp hright
    · exact (hc.of_find? ha).merge (wellFormed_of_find?_globalScopes hp hb)
  rcases Option.merge_eq_some_iff.mp hfind with ⟨hleft, -⟩ | ⟨-, hright⟩ | ⟨a, b, ha, hb, hab⟩
  · exact habove _ hleft
  · exact hp.of_find? hright
  · rw [← hab]
    exact (habove a ha).merge (hp.of_find? hb)

theorem trail_overrideAbove_within (hp : p.WellFormed) (pattern : String) :
    Trail.inside (·.trail setting) (c.overrideAbove p (.within pattern)) =
      (c.trailAt setting pattern).merge
        (.inside (·.trail setting) (Table.find? (globalScopes p) pattern)) :=
  Trail.inside_merge fun a _ _ hb =>
    a.trail_merge (wellFormed_of_find?_globalScopes hp hb) setting

/-- At a pattern there is what was there before, then the preset's own settings for every file, and
last its scope. -/
theorem trailAt_mergePreset_within (c : ResolvedConfig) (name : String) (hp : p.WellFormed)
    (setting : Setting) (pattern : String) :
    (c.mergePreset name p).trailAt setting pattern =
      (Trail.inside (·.trail setting) (c.overrideAbove p (.within pattern))).merge
        (p.trailIn setting (.within pattern)) := by
  rw [trailAt, find?_mergePreset hp]
  exact Trail.inside_merge fun a _ _ hb => a.trail_merge (hp.of_find? hb) setting

theorem trailAt_mergePreset (c : ResolvedConfig) (name : String) (hp : p.WellFormed)
    (setting : Setting) (reach : Reach) :
    (c.mergePreset name p).trailAt setting reach.pattern =
      ((Trail.inside (·.trail setting) (c.overrideAbove p reach)).merge
        (p.trailIn setting reach)).merge
          (.inside (·.trail setting) (p.overrideBelow reach)) := by
  cases reach with
  | within pattern =>
    show (c.mergePreset name p).trailAt setting pattern = Trail.merge _ (.missing 0)
    rw [trailAt_mergePreset_within c name hp, Trail.merge_missing_zero]
  | everywhere =>
    show (c.mergePreset name p).trailAt setting globalScope = _
    rw [trailAt_mergePreset_within c name hp, trail_overrideAbove_within hp]
    rfl

/-! ## A preset that says something else -/

theorem exists_override (h : (p.trailIn setting reach).value?.isSome) :
    ∃ s, p.overrideIn reach = some s ∧ (s.trail setting).value?.isSome := by
  unfold Configuration.trailIn at h
  cases hs : p.overrideIn reach with
  | none =>
    rw [hs] at h
    cases h
  | some s =>
    rw [hs] at h
    exact ⟨s, rfl, h⟩

/-- The settings for every file lead to nothing but severities. -/
theorem globalScopes_put (h : (p.trailIn setting .everywhere).value?.isSome)
    (choice : setting.Choice) :
    globalScopes p = [(globalScope, globalOverride p)] ∧
      globalScopes (p.put setting choice .everywhere) =
        [(globalScope, (globalOverride p).put setting choice)] := by
  obtain ⟨s, hs, hsome⟩ := exists_override h
  have hscopes : globalScopes p = [(globalScope, globalOverride p)] := by
    have hfound : Table.find? (globalScopes p) globalScope = some s := hs
    unfold globalScopes at hfound ⊢
    dsimp only at hfound ⊢
    split at hfound
    · cases hfound
    · rename_i hnonempty
      rw [if_neg hnonempty]
  obtain rfl : globalOverride p = s := by
    have hfound : Table.find? (globalScopes p) globalScope = some s := hs
    rw [hscopes] at hfound
    exact Option.some.inj hfound
  refine ⟨hscopes, ?_⟩
  cases setting with
  | option linter names => cases hsome
  | severity key =>
    have hput : globalOverride (p.put (.severity key) choice .everywhere) =
        (globalOverride p).put (.severity key) choice := rfl
    have hkey : key ∈ Table.names
        (((globalOverride p).put (.severity key) choice).severity.getD []) := by
      refine Table.find?_isSome_iff.mp ?_
      have hset : ((globalOverride p).put (.severity key) choice).severityOf key = some choice :=
        (globalOverride p).severityOf_withSeverity key choice
      exact Option.isSome_iff_exists.mpr ⟨_, hset⟩
    have hnonempty : ((globalOverride p).put (.severity key) choice).isEmpty = false := by
      refine Bool.eq_false_iff.mpr fun hempty => ?_
      simp only [ScopeOverride.isEmpty, Bool.and_eq_true, List.isEmpty_iff] at hempty
      rw [hempty.1.2] at hkey
      cases hkey
    unfold globalScopes
    dsimp only
    rw [hput, hnonempty]
    rfl

theorem trailIn_put {depth : Nat} {x : Value} (h : p.trailIn setting reach = .found depth x)
    (choice : setting.Choice) :
    (p.put setting choice reach).trailIn setting reach = .found depth choice.value := by
  have hsome := Trail.isSome_of_eq_found h
  obtain ⟨s, hs, -⟩ := exists_override hsome
  have htrail : s.trail setting = .found depth x := by
    rw [Configuration.trailIn, hs] at h
    exact h
  suffices hput : (p.put setting choice reach).overrideIn reach = some (s.put setting choice) by
    rw [Configuration.trailIn, hput]
    exact ScopeOverride.trail_put htrail choice
  cases reach with
  | everywhere =>
    obtain ⟨hscopes, hchanged⟩ := globalScopes_put hsome choice
    rw [Configuration.overrideIn, hscopes] at hs
    rw [Configuration.overrideIn, hchanged, ← Option.some.inj hs]
    rfl
  | within pattern =>
    have hfound : Table.find? (p.scopes.getD []) pattern = some s := hs
    show Table.find? (Table.upsert pattern _ (p.scopes.getD [])) pattern = _
    rw [Table.find?_upsert, if_pos (beq_self_eq_true pattern), hfound]
    rfl

theorem overrideAbove_put (choice : setting.Choice) :
    c.overrideAbove (p.put setting choice reach) reach = c.overrideAbove p reach := by
  cases reach <;> rfl

theorem overrideBelow_put (choice : setting.Choice) :
    (p.put setting choice reach).overrideBelow reach = p.overrideBelow reach := by
  cases reach <;> rfl

theorem wellFormed_put (hp : p.WellFormed) (choice : setting.Choice) (reach : Reach) :
    (p.put setting choice reach).WellFormed := by
  cases reach with
  | everywhere =>
    have hglobal : (globalOverride p).WellFormed := ⟨hp.severity, by simp [globalOverride]⟩
    exact ⟨(hglobal.put setting choice).severity, hp.linterConfig, hp.scopes, hp.scope⟩
  | within pattern =>
    refine ⟨hp.severity, hp.linterConfig, fun t ht => ?_, fun t ht entry hentry => ?_⟩
    · obtain rfl := Option.some.inj ht
      exact (distinct_scopes_getD hp).upsert _ _
    · obtain rfl := Option.some.inj ht
      rcases Table.mem_upsert hentry with hmem | rfl
      · exact hp.of_find? ((distinct_scopes_getD hp).find?_of_mem hmem)
      · refine ScopeOverride.WellFormed.put ?_ setting choice
        cases hfind : Table.find? (p.scopes.getD []) pattern with
        | none => exact ⟨by simp, by simp⟩
        | some s => exact hp.of_find? hfind

theorem names_put (c : ResolvedConfig) (name : String)
    (h : (p.trailIn setting reach).value?.isSome) (choice : setting.Choice) :
    Table.names (c.mergePreset name (p.put setting choice reach)).scopes =
      Table.names (c.mergePreset name p).scopes := by
  rw [names_mergePreset, names_mergePreset]
  cases reach with
  | everywhere =>
    obtain ⟨hscopes, hchanged⟩ := globalScopes_put h choice
    rw [hscopes, hchanged]
    rfl
  | within pattern =>
    obtain ⟨s, hs, -⟩ := exists_override h
    have hmem : pattern ∈ Table.names (p.scopes.getD []) :=
      Table.find?_isSome_iff.mp (Option.isSome_iff_exists.mpr ⟨s, hs⟩)
    have hpatterns : (p.put setting choice (.within pattern)).patterns = p.patterns := by
      show Table.names (Table.upsert pattern _ (p.scopes.getD [])) = _
      rw [Table.names_upsert, if_pos hmem]
      rfl
    rw [hpatterns]
    rfl

theorem mem_names_of_trailIn (c : ResolvedConfig) (name : String)
    (h : (p.trailIn setting reach).value?.isSome) :
    reach.pattern ∈ Table.names (c.mergePreset name p).scopes := by
  obtain ⟨s, hs, -⟩ := exists_override h
  have hfound := Option.isSome_iff_exists.mpr ⟨s, hs⟩
  rw [names_mergePreset, mem_union, mem_union]
  cases reach with
  | everywhere => exact Or.inl (Or.inr (Table.find?_isSome_iff.mp hfound))
  | within pattern => exact Or.inr (Table.find?_isSome_iff.mp hfound)

theorem find?_put (hp : p.WellFormed) (choice : setting.Choice) {pattern : String}
    (hne : pattern ≠ reach.pattern) :
    Table.find? (c.mergePreset name (p.put setting choice reach)).scopes pattern =
      Table.find? (c.mergePreset name p).scopes pattern := by
  rw [find?_mergePreset hp, find?_mergePreset (wellFormed_put hp choice reach)]
  cases reach with
  | everywhere =>
    have hnone : ∀ q : Configuration, Table.find? (globalScopes q) pattern = none := by
      intro q
      refine Table.find?_eq_none_iff.mpr fun hmem => hne ?_
      exact List.mem_singleton.mp ((names_globalScopes q).subset hmem)
    rw [hnone, hnone]
    rfl
  | within own =>
    have hother : Table.find? ((p.put setting choice (.within own)).scopes.getD []) pattern =
        Table.find? (p.scopes.getD []) pattern := by
      show Table.find? (Table.upsert own _ (p.scopes.getD [])) pattern = _
      rw [Table.find?_upsert, if_neg (by simpa [Reach.pattern] using hne)]
    rw [hother]
    rfl

/-- Only the scope of the place is another one. -/
theorem matching_put (name : String) (hc : c.WellFormed) (hp : p.WellFormed)
    (h : (p.trailIn setting reach).value?.isSome) (choice : setting.Choice) (path : String) :
    ∃ s, Table.find? (c.mergePreset name (p.put setting choice reach)).scopes reach.pattern =
        some s ∧
      (c.mergePreset name (p.put setting choice reach)).matching path =
        ((c.mergePreset name p).matching path).map fun scope =>
          (scope.1, if scope.1 = reach.pattern then s else scope.2) := by
  have hnames := names_put c name h choice
  obtain ⟨s, hs⟩ := Option.isSome_iff_exists.mp
    (Table.find?_isSome_iff.mpr (hnames ▸ mem_names_of_trailIn c name h))
  exact ⟨s, hs, matching_of_find?_eq (hc.mergePreset hp name) hnames
    (fun _ hne => find?_put hp choice hne) hs path⟩

/-! ## The place that decides -/

/-- What a file is set to when a place of the preset says something else. -/
theorem effective_put (name : String) (hc : c.WellFormed) (hp : p.WellFormed) {depth : Nat}
    {x : Value} (h : p.trailIn setting reach = .found depth x)
    (hmatch : globMatches reach.pattern (slashed path) = true) :
    ∃ below : List Trail, ∀ choice : setting.Choice,
      (c.mergePreset name (p.put setting choice reach)).effective path setting =
        (below.foldl Trail.merge
          (((c.mergePreset name p).scopeBefore path reach.pattern).trail setting |>.merge
            (((Trail.inside (·.trail setting) (c.overrideAbove p reach)).merge
              (.found depth choice.value)).merge
                (.inside (·.trail setting) (p.overrideBelow reach))))).value? := by
  have hsome := Trail.isSome_of_eq_found h
  obtain ⟨s, hs⟩ := Option.isSome_iff_exists.mp
    (Table.find?_isSome_iff.mpr (mem_names_of_trailIn c name hsome))
  obtain ⟨before, after, hsplit, hbefore, hafter⟩ :=
    matching_eq_append (hc.mergePreset hp name) hs hmatch
  refine ⟨after.map (·.2.trail setting), fun choice => ?_⟩
  obtain ⟨s', hs', hmatching⟩ := matching_put name hc hp hsome choice path
  rw [hsplit, List.map_append, List.map_cons, map_eq_self_of_ne hbefore,
    map_eq_self_of_ne hafter, if_pos rfl] at hmatching
  have hput := wellFormed_put hp choice reach
  have htrail : s'.trail setting =
      ((Trail.inside (·.trail setting) (c.overrideAbove p reach)).merge
        (.found depth choice.value)).merge
          (.inside (·.trail setting) (p.overrideBelow reach)) := by
    have hat := trailAt_mergePreset c name hput setting reach
    rw [trailAt, hs', overrideAbove_put, overrideBelow_put, trailIn_put h choice] at hat
    exact hat
  rw [effective_eq (hc.mergePreset hput name) hmatching hbefore, htrail,
    scopeBefore_eq hmatching hbefore, scopeBefore_eq hsplit hbefore]

theorem matches_of_presetDecides (hc : c.WellFormed) (hp : p.WellFormed)
    (h : c.PresetDecides name p path setting reach) :
    globMatches reach.pattern (slashed path) = true := by
  obtain ⟨hsome, hfollows⟩ := h
  refine Decidable.byContradiction fun hout => ?_
  have hother : ∀ scope ∈ (c.mergePreset name p).matching path, scope.1 ≠ reach.pattern := by
    rintro scope hscope heq
    exact hout (heq ▸ (mem_matching.mp hscope).2)
  -- No scope of the file has the pattern, so that the file is set to the same in any case.
  have hsame : ∀ choice : setting.Choice, (c.mergePreset name p).effective path setting =
      some choice.value := by
    intro choice
    obtain ⟨s, -, hmatching⟩ := matching_put name hc hp hsome choice path
    rw [map_eq_self_of_ne hother] at hmatching
    rw [← hfollows choice, effective, effective, scopeFor, scopeFor, hmatching]
  obtain ⟨choice, other, hne⟩ := setting.exists_choices_ne
  exact hne (Option.some.inj ((hsame choice).symm.trans (hsame other)))

/-- A place of the preset decides if and only if nothing that goes before keeps it out. -/
theorem presetDecides_iff_comesIn (hc : c.WellFormed) (hp : p.WellFormed) :
    c.PresetDecides name p path setting reach ↔ c.ComesIn name p path setting reach := by
  constructor
  · intro h
    have hmatch := matches_of_presetDecides hc hp h
    obtain ⟨hsome, hfollows⟩ := h
    cases htrail : p.trailIn setting reach with
    | missing d =>
      rw [htrail] at hsome
      cases hsome
    | found depth x =>
      obtain ⟨below, heffective⟩ := effective_put name hc hp htrail hmatch
      obtain ⟨choice, other, hne⟩ := setting.exists_choices_ne
      exact ⟨hmatch, depth, x, htrail, Trail.admits_of_value? choice.members_value
        other.members_value hne ((heffective choice).symm.trans (hfollows choice))
        ((heffective other).symm.trans (hfollows other))⟩
  · rintro ⟨hmatch, depth, x, htrail, habove, hbeside⟩
    obtain ⟨below, heffective⟩ := effective_put name hc hp htrail hmatch
    refine ⟨Trail.isSome_of_eq_found htrail, fun choice => ?_⟩
    rw [heffective choice, Trail.value?_of_admits choice.members_value habove hbeside]

/-! ## Scopes and presets -/

/-- What a scope sets, it sets with the preset, too. -/
theorem exists_scope_mergePreset (name : String) (hp : p.WellFormed) {pattern : String}
    {s : ScopeOverride} {depth : Nat} {x : Value} (hs : Table.find? c.scopes pattern = some s)
    (htrail : s.trail setting = .found depth x) (hx : x.members? = none) :
    ∃ s', Table.find? (c.mergePreset name p).scopes pattern = some s' ∧
      s'.trail setting = .found depth x := by
  have hmem : pattern ∈ Table.names (c.mergePreset name p).scopes :=
    names_sublist_mergePreset.subset
      (Table.find?_isSome_iff.mp (Option.isSome_iff_exists.mpr ⟨s, hs⟩))
  obtain ⟨s', hs'⟩ := Option.isSome_iff_exists.mp (Table.find?_isSome_iff.mpr hmem)
  have hown : c.trailAt setting pattern = .found depth x := by
    rw [trailAt, hs]
    exact htrail
  have hat := trailAt_mergePreset_within c name hp setting pattern
  rw [trail_overrideAbove_within hp, hown, Trail.found_merge hx, Trail.found_merge hx,
    trailAt, hs'] at hat
  exact ⟨s', hs', hat⟩

/-- A place that comes in over a scope without being more specific overtakes it. -/
theorem ComesIn.overtakes (hc : c.WellFormed) (hp : p.WellFormed)
    (h : c.ComesIn name p path setting reach) {pattern : String}
    (hsets : c.Sets path setting pattern)
    (hspecific : specificity reach.pattern ≤ specificity pattern) :
    c.PresetOvertakes name p reach pattern := by
  obtain ⟨hmatch, depth, value, htrail, habove, hbeside⟩ := h
  obtain ⟨hmatch', s, x, hs, hfound, hx⟩ := hsets.exists_scope hc
  have hm := hc.mergePreset hp name
  by_cases hsame : reach.pattern = pattern
  · -- At the pattern of the scope, the scope goes before the preset.
    exfalso
    have hown : c.trailAt setting pattern = .found setting.depth x := by
      rw [trailAt, hs]
      exact hfound
    cases reach with
    | everywhere =>
      obtain rfl : globalScope = pattern := hsame
      exact Trail.not_admits_of_isSome (Trail.isSome_of_eq_found hown) hbeside
    | within own =>
      obtain rfl : own = pattern := hsame
      rw [trail_overrideAbove_within hp, hown, Trail.found_merge hx] at hbeside
      exact Trail.not_admits_of_isSome rfl hbeside
  · obtain ⟨s', hs', hfound'⟩ := exists_scope_mergePreset name hp hs hfound hx
    have hmem : (pattern, s') ∈ (c.mergePreset name p).matching path :=
      mem_matching.mpr ⟨Table.mem_of_find? hs', hmatch'⟩
    obtain ⟨r, hr⟩ := Option.isSome_iff_exists.mp (Table.find?_isSome_iff.mpr
      (mem_names_of_trailIn c name (Trail.isSome_of_eq_found htrail)))
    obtain ⟨before, after, hsplit, hbefore, -⟩ := matching_eq_append hm hr hmatch
    have hpairs := pairwise_matching (c.mergePreset name p) path
    rw [hsplit] at hmem hpairs
    obtain ⟨-, hrest, -⟩ := List.pairwise_append.mp hpairs
    rcases List.mem_append.mp hmem with hfirst | hlater
    · have hset := isSome_scopeBefore hm hsplit hbefore hfirst hfound'
      exact absurd habove (Trail.not_admits_of_isSome hset)
    · rcases List.mem_cons.mp hlater with heq | hlater
      · exact absurd (congrArg Prod.fst heq).symm hsame
      · rcases (List.pairwise_cons.mp hrest).1 _ hlater with hlt | ⟨heq, hlisted⟩
        · exact absurd hlt (Nat.not_lt_of_le hspecific)
        · exact ⟨heq, hlisted⟩

/-! ## What a preset changes -/

theorem Clear.exists_scope_mergePreset (name : String) (hc : c.WellFormed) (hp : p.WellFormed)
    (hclear : c.Clear path setting) {scope : String × ScopeOverride}
    (hscope : scope ∈ c.matching path) {depth : Nat} {x : Value}
    (htrail : scope.2.trail setting = .found depth x) :
    ∃ o, (scope.1, o) ∈ (c.mergePreset name p).matching path ∧
      o.trail setting = .found setting.depth x := by
  obtain ⟨rfl, hx⟩ := hclear.depth_eq hscope htrail
  obtain ⟨hmem, hmatch⟩ := mem_matching.mp hscope
  obtain ⟨o, ho, hfound⟩ :=
    ResolvedConfig.exists_scope_mergePreset name hp (hc.distinct.find?_of_mem hmem) htrail hx
  exact ⟨o, mem_matching.mpr ⟨Table.mem_of_find? ho, hmatch⟩, hfound⟩

/-- With a preset, the scopes before a pattern say nothing only if they do so without it. -/
theorem value?_scopeBefore_eq_none (hc : c.WellFormed) (hp : p.WellFormed)
    (hclear : c.Clear path setting) {pattern : String} {s s' : ScopeOverride}
    (hs : Table.find? c.scopes pattern = some s)
    (hs' : Table.find? (c.mergePreset name p).scopes pattern = some s')
    (hmatch : globMatches pattern (slashed path) = true)
    (h : (((c.mergePreset name p).scopeBefore path pattern).trail setting).value? = none) :
    ((c.scopeBefore path pattern).trail setting).value? = none := by
  have hm := hc.mergePreset hp name
  obtain ⟨before, after, hsplit, hbefore, -⟩ := matching_eq_append hc hs hmatch
  obtain ⟨before', after', hsplit', hbefore', -⟩ := matching_eq_append hm hs' hmatch
  rw [trail_scopeBefore hc hsplit hbefore]
  refine Trail.value?_foldl_eq_none (ScopeOverride.trail_empty setting) fun t ht => ?_
  obtain ⟨scope, hscope, rfl⟩ := List.mem_map.mp ht
  cases htrail : scope.2.trail setting with
  | missing d => rfl
  | found depth x =>
    -- A scope that says something before the pattern says it there with the preset, too.
    exfalso
    obtain ⟨o, ho, hfound⟩ := hclear.exists_scope_mergePreset name hc hp
      (mem_matching_of_before hsplit scope hscope) htrail
    have hfirst : Outranks (Table.names (c.mergePreset name p).scopes) scope.1 pattern := by
      have hpairs := pairwise_matching c path
      rw [hsplit] at hpairs
      exact ((List.pairwise_append.mp hpairs).2.2 scope hscope _ List.mem_cons_self).mono
        names_sublist_mergePreset
    have hpairs' := pairwise_matching (c.mergePreset name p) path
    rw [hsplit'] at hpairs' ho
    rcases List.mem_append.mp ho with hin | hout
    · have hset := isSome_scopeBefore hm hsplit' hbefore' hin hfound
      rw [h] at hset
      cases hset
    · rcases List.mem_cons.mp hout with heq | hlater
      · exact hfirst.ne hm.distinct (congrArg Prod.fst heq)
      · have hafter := (List.pairwise_cons.mp (List.pairwise_append.mp hpairs').2.1).1 _ hlater
        exact hfirst.asymm hm.distinct hafter

/-- A preset takes nothing away from what a file is set to. -/
theorem effective_eq_none (hc : c.WellFormed) (hp : p.WellFormed) (hclear : c.Clear path setting)
    (h : (c.mergePreset name p).effective path setting = none) :
    c.effective path setting = none := by
  rw [effective, scopeFor, trail_foldl_scopes hc fun _ hscope => hscope]
  refine Trail.value?_foldl_eq_none (ScopeOverride.trail_empty setting) fun t ht => ?_
  obtain ⟨scope, hscope, rfl⟩ := List.mem_map.mp ht
  cases htrail : scope.2.trail setting with
  | missing d => rfl
  | found depth x =>
    exfalso
    obtain ⟨o, ho, hfound⟩ := hclear.exists_scope_mergePreset name hc hp hscope htrail
    have hset := isSome_of_scope (hc.mergePreset hp name) (fun _ h => h) ho hfound
    rw [← scopeFor, ← effective, h] at hset
    cases hset

/-- What a scope has with a preset and does not have without it is from the preset. -/
theorem exists_comesIn (hp : p.WellFormed) {pattern : String} {depth : Nat} {x : Value}
    (hmatch : globMatches pattern (slashed path) = true)
    (hwith : (c.mergePreset name p).trailAt setting pattern = .found depth x)
    (hwithout : (c.trailAt setting pattern).value? = none)
    (habove : (((c.mergePreset name p).scopeBefore path pattern).trail setting).Admits depth) :
    ∃ reach, c.ComesIn name p path setting reach := by
  rw [trailAt_mergePreset_within c name hp] at hwith
  cases hover : Trail.inside (·.trail setting) (c.overrideAbove p (.within pattern)) with
  | missing d =>
    obtain ⟨hown, hadmits⟩ := Trail.admits_of_merge_eq_found (by rw [hover]; rfl) hwith
    exact ⟨.within pattern, hmatch, depth, x, hown, habove, hadmits⟩
  | found depth' y =>
    obtain rfl := Trail.depth_of_found_merge hover hwith
    rw [trail_overrideAbove_within hp] at hover
    obtain ⟨hglobal, hadmits⟩ := Trail.admits_of_merge_eq_found hwithout hover
    -- Only one pattern has settings of the preset that are for every file.
    have hpattern : pattern = globalScope := by
      refine List.mem_singleton.mp ((names_globalScopes p).subset (Table.find?_isSome_iff.mp ?_))
      refine Option.isSome_iff_ne_none.mpr fun hnone => ?_
      rw [hnone] at hglobal
      cases hglobal
    subst hpattern
    exact ⟨.everywhere, hmatch, depth, y, hglobal, habove, hadmits⟩

/-- A file that is set by a scope with a preset is set to the same without it. -/
theorem effective_mergePreset_of_found (hc : c.WellFormed) (hp : p.WellFormed)
    (hclear : c.Clear path setting) {pattern : String} {depth depth' : Nat} {v x : Value}
    {s' : ScopeOverride} (hmatch : globMatches pattern (slashed path) = true)
    (hwithout : c.trailAt setting pattern = .found depth v)
    (hs' : Table.find? (c.mergePreset name p).scopes pattern = some s')
    (hwith : s'.trail setting = .found depth' x)
    (habove : (((c.mergePreset name p).scopeBefore path pattern).trail setting).Admits depth') :
    (c.mergePreset name p).effective path setting = c.effective path setting := by
  cases hs : Table.find? c.scopes pattern with
  | none =>
    rw [trailAt, hs] at hwithout
    cases hwithout
  | some s =>
    have htrail : s.trail setting = .found depth v := by
      rw [trailAt, hs] at hwithout
      exact hwithout
    obtain ⟨rfl, hv⟩ := hclear.depth_eq
      (mem_matching.mpr ⟨Table.mem_of_find? hs, hmatch⟩) htrail
    obtain ⟨o, ho, hkept⟩ := exists_scope_mergePreset name hp hs htrail hv
    obtain rfl : s' = o := Option.some.inj (hs'.symm.trans ho)
    obtain ⟨rfl, rfl⟩ := Trail.found.inj (hwith.symm.trans hkept)
    have hopen := ScopeOverride.trail_admits
      (value?_scopeBefore_eq_none hc hp hclear hs hs' hmatch habove.value?_eq_none)
    rw [effective_of_admits (hc.mergePreset hp name) hs' hmatch habove hwith hv,
      effective_of_admits hc hs hmatch hopen htrail hv]

/-- Where a preset changes what a file is set to, one of its places comes in. -/
theorem effective_eq_or_comesIn (name : String) (hc : c.WellFormed) (hp : p.WellFormed)
    (hclear : c.Clear path setting) :
    (c.mergePreset name p).effective path setting = c.effective path setting ∨
      ∃ reach, c.ComesIn name p path setting reach := by
  cases heffective : (c.mergePreset name p).effective path setting with
  | none => exact Or.inl (effective_eq_none hc hp hclear heffective).symm
  | some y =>
    obtain ⟨pattern, s, depth, x, hs, hmatch, hfound, habove⟩ :=
      exists_scope_of_effective (hc.mergePreset hp name)
        (Option.isSome_iff_exists.mpr ⟨y, heffective⟩)
    cases hold : c.trailAt setting pattern with
    | missing d =>
      right
      have hwith : (c.mergePreset name p).trailAt setting pattern = .found depth x := by
        rw [trailAt, hs]
        exact hfound
      exact exists_comesIn hp hmatch hwith (by rw [hold]; rfl) habove
    | found depth' v =>
      left
      rw [← heffective]
      exact effective_mergePreset_of_found hc hp hclear hmatch hold hs hfound habove

/-- A scope that sets something is safe from what a preset says as specifically or less so, if and
only if each place of the preset that goes before it is itself kept out. If all scopes are, a file
is set to something else only by a place that is more specific than each of them. -/
theorem preset_decides_nothing_iff (hc : c.WellFormed) (hp : p.WellFormed) (name path : String)
    (setting : Setting) :
    (∀ pattern, c.Sets path setting pattern →
      ((∀ reach : Reach, specificity reach.pattern ≤ specificity pattern →
          ¬ c.PresetDecides name p path setting reach) ↔
        ∀ reach : Reach, c.PresetOvertakes name p reach pattern →
          ¬ c.ComesIn name p path setting reach)) ∧
      (c.Clear path setting →
        (∀ pattern, c.Sets path setting pattern →
          ∀ reach : Reach, c.PresetOvertakes name p reach pattern →
            ¬ c.ComesIn name p path setting reach) →
        (c.mergePreset name p).effective path setting ≠ c.effective path setting →
        ∃ reach : Reach, c.PresetDecides name p path setting reach ∧
          ∀ pattern, c.Sets path setting pattern →
            specificity pattern < specificity reach.pattern) := by
  refine ⟨fun pattern hsets => ⟨fun hnone reach hovertakes hcomes => ?_,
    fun hout reach hspecific hdecides => ?_⟩, fun hclear hout hchanged => ?_⟩
  · exact hnone reach (Nat.le_of_eq hovertakes.1) ((presetDecides_iff_comesIn hc hp).mpr hcomes)
  · have hcomes := (presetDecides_iff_comesIn hc hp).mp hdecides
    exact hout reach (hcomes.overtakes hc hp hsets hspecific) hcomes
  · rcases effective_eq_or_comesIn name hc hp hclear with hsame | ⟨reach, hcomes⟩
    · exact absurd hsame hchanged
    · refine ⟨reach, (presetDecides_iff_comesIn hc hp).mpr hcomes, fun pattern hsets => ?_⟩
      refine Nat.lt_of_not_le fun hspecific => ?_
      exact hout pattern hsets reach (hcomes.overtakes hc hp hsets hspecific) hcomes

/-- A configuration with the severity of one key for the files of one pattern. -/
def singleSeverity : ResolvedConfig :=
  { scopes := [("src/**", { severity := some [("naming", .off)] })] }

theorem wellFormed_singleSeverity : singleSeverity.WellFormed := by
  refine ⟨by decide, fun scope hscope => ?_⟩
  rw [List.mem_singleton.mp hscope]
  exact ⟨by simp [Table.Distinct, Table.names], by simp⟩

/-- A preset wins a tie with a pattern that is new. -/
theorem preset_wins_tie :
    singleSeverity.WellFormed ∧ (singleScope "src/*.ts" "naming" .error).WellFormed ∧
      singleSeverity.Sets "src/a.ts" (.severity "naming") "src/**" ∧
      specificity "src/*.ts" ≤ specificity "src/**" ∧
      singleSeverity.PresetDecides "preset" (singleScope "src/*.ts" "naming" .error) "src/a.ts"
        (.severity "naming") (.within "src/*.ts") := by
  refine ⟨wellFormed_singleSeverity, wellFormed_singleScope _ _ _,
    ⟨_, List.mem_singleton_self _, by decide +kernel, rfl⟩, by decide +kernel, ?_⟩
  refine (presetDecides_iff_comesIn wellFormed_singleSeverity
    (wellFormed_singleScope _ _ _)).mpr ⟨by decide +kernel, 1, .text "error", rfl, ?_, ?_⟩
  · decide +kernel
  · decide +kernel

/-- An override with one option of one linter. -/
def ofStyle (style : String) : ScopeOverride :=
  { linterConfig := some [("naming", .object [("style", .text style)])] }

theorem wellFormed_ofStyle (style : String) : (ofStyle style).WellFormed := by
  refine ⟨by simp [ofStyle], ?_⟩
  rintro t ⟨⟩
  refine .object (List.nodup_cons.mpr ⟨by simp, .nil⟩) (List.forall_mem_singleton.mpr ?_)
  exact .object (List.nodup_cons.mpr ⟨by simp, .nil⟩) (List.forall_mem_singleton.mpr (.text style))

/-- A configuration with an option for the files of one pattern. -/
def styledConfig : ResolvedConfig := { scopes := [("src/**", ofStyle "camel")] }

/-- A preset with the option for the files of a pattern that is as specific, and for one file. -/
def styledPreset : Configuration :=
  { scopes := some [("src/*.ts", ofStyle "snake"), ("src/a.ts", ofStyle "kebab")] }

theorem wellFormed_styledConfig : styledConfig.WellFormed := by
  refine ⟨by decide +kernel, fun scope hscope => ?_⟩
  rw [List.mem_singleton.mp hscope]
  exact wellFormed_ofStyle "camel"

theorem wellFormed_styledPreset : styledPreset.WellFormed := by
  refine ⟨by simp [styledPreset], by simp [styledPreset], ?_, ?_⟩
  · rintro t ⟨⟩
    decide +kernel
  · rintro t ⟨⟩
    simp [wellFormed_ofStyle]

/-- Of two scopes of a preset, the one for a single file keeps the other one out. -/
theorem not_comesIn_styledPreset {reach : Reach}
    (hovertakes : styledConfig.PresetOvertakes "preset" styledPreset reach "src/**") :
    ¬ styledConfig.ComesIn "preset" styledPreset "src/a.ts" (.option "naming" ["style"]) reach := by
  rintro ⟨-, depth, value, htrail, habove, -⟩
  cases reach with
  | everywhere =>
    have hnone : styledPreset.trailIn (.option "naming" ["style"]) .everywhere = .missing 0 := rfl
    rw [hnone] at htrail
    cases htrail
  | within pattern =>
    obtain ⟨s, hs, -⟩ := exists_override (Trail.isSome_of_eq_found htrail)
    have hpattern : pattern ∈ ["src/*.ts", "src/a.ts"] :=
      Table.find?_isSome_iff.mp (Option.isSome_iff_exists.mpr ⟨s, hs⟩)
    rcases List.mem_cons.mp hpattern with rfl | hpattern
    · have hfound : styledPreset.trailIn (.option "naming" ["style"]) (.within "src/*.ts") =
          .found 2 (.text "snake") := rfl
      rw [hfound] at htrail
      cases htrail
      revert habove
      decide +kernel
    · rw [List.mem_singleton.mp hpattern] at hovertakes
      have hspecific := hovertakes.1
      revert hspecific
      decide +kernel

theorem preset_decides_nothing_below_file :
    styledConfig.WellFormed ∧ styledPreset.WellFormed ∧
      styledConfig.Sets "src/a.ts" (.option "naming" ["style"]) "src/**" ∧
      styledConfig.PresetOvertakes "preset" styledPreset (.within "src/*.ts") "src/**" ∧
      (∀ reach : Reach, specificity reach.pattern ≤ specificity "src/**" →
        ¬ styledConfig.PresetDecides "preset" styledPreset "src/a.ts"
          (.option "naming" ["style"]) reach) ∧
      ∃ reach : Reach, styledConfig.PresetDecides "preset" styledPreset "src/a.ts"
          (.option "naming" ["style"]) reach ∧
        specificity "src/**" < specificity reach.pattern := by
  obtain ⟨hdecides, hchanges⟩ := preset_decides_nothing_iff wellFormed_styledConfig
    wellFormed_styledPreset "preset" "src/a.ts" (.option "naming" ["style"])
  have hsets : styledConfig.Sets "src/a.ts" (.option "naming" ["style"]) "src/**" :=
    ⟨_, List.mem_singleton_self _, by decide +kernel, rfl⟩
  have honly : ∀ pattern,
      styledConfig.Sets "src/a.ts" (.option "naming" ["style"]) pattern → pattern = "src/**" := by
    rintro pattern ⟨scope, hscope, -⟩
    exact congrArg Prod.fst (List.mem_singleton.mp hscope)
  have hout : ∀ pattern, styledConfig.Sets "src/a.ts" (.option "naming" ["style"]) pattern →
      ∀ reach : Reach, styledConfig.PresetOvertakes "preset" styledPreset reach pattern →
        ¬ styledConfig.ComesIn "preset" styledPreset "src/a.ts"
          (.option "naming" ["style"]) reach := by
    intro pattern hpattern reach hovertakes
    rw [honly pattern hpattern] at hovertakes
    exact not_comesIn_styledPreset hovertakes
  have hclear : styledConfig.Clear "src/a.ts" (.option "naming" ["style"]) := by
    intro scope hscope _
    rw [List.mem_singleton.mp (mem_matching.mp hscope).1]
    rfl
  have hchanged : (styledConfig.mergePreset "preset" styledPreset).effective "src/a.ts"
      (.option "naming" ["style"]) ≠
        styledConfig.effective "src/a.ts" (.option "naming" ["style"]) := by
    have hnew : Table.find? (styledConfig.mergePreset "preset" styledPreset).scopes "src/a.ts" =
        some (ofStyle "kebab") := rfl
    have hkebab : (styledConfig.mergePreset "preset" styledPreset).effective "src/a.ts"
        (.option "naming" ["style"]) = some (.text "kebab") :=
      effective_of_admits (wellFormed_styledConfig.mergePreset wellFormed_styledPreset "preset")
        hnew (by decide +kernel) (by decide +kernel) rfl rfl
    have hold : Table.find? styledConfig.scopes "src/**" = some (ofStyle "camel") := rfl
    have hcamel : styledConfig.effective "src/a.ts" (.option "naming" ["style"]) =
        some (.text "camel") :=
      effective_of_admits wellFormed_styledConfig hold (by decide +kernel) (by decide +kernel)
        rfl rfl
    rw [hkebab, hcamel]
    simp
  refine ⟨wellFormed_styledConfig, wellFormed_styledPreset, hsets, ⟨by decide +kernel, ?_⟩,
    (hdecides "src/**" hsets).mpr (hout "src/**" hsets), ?_⟩
  · decide +kernel
  · obtain ⟨reach, hreach, hspecific⟩ := hchanges hclear hout hchanged
    exact ⟨reach, hreach, hspecific "src/**" hsets⟩

end ResolvedConfig

end LintFront
