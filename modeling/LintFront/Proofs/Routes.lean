import LintFront.Proofs.Contributions
import LintFront.Proofs.Published

/-!
# A preset on disk and the same preset from a plugin

A preset that lies on disk is merged below the configuration that inherits it before anything is
resolved. One that a plugin publishes is brought into the resolved configuration. Lists, options
and the linters that are skipped come out the same. Severities may not: the pattern of every file
gets another place among the others, and the preset's own scope of that pattern goes below the
settings for every file, not above them.

* `Spot`: a place of the configuration or of the preset.
* `Spot.Decides`: the severity of a file follows a spot whatever it says.
* `Spot.TurnsAround`: two spots whose order depends on the route.
* `ResolvedConfig.routes_agree_iff`: when the two routes come to the same.
* `ResolvedConfig.routes_differ`: a preset for which they do not.
-/

namespace LintFront

open scoped List

/-- The configuration, or the preset below it. -/
inductive Side
  | config
  | preset
  deriving DecidableEq

/-- A place of a configuration, or of the preset below it. -/
structure Spot where
  side : Side
  reach : Reach
  deriving DecidableEq

namespace Spot

/-- The severity that a spot sets for a key. -/
def severity (c p : Configuration) (key : String) (i : Spot) : Option Severity :=
  match i.side with
  | .config => c.severityIn key i.reach
  | .preset => p.severityIn key i.reach

/-- The configuration and the preset with another severity at a spot. -/
def change (c p : Configuration) (key : String) (s : Severity) (i : Spot) :
    Configuration × Configuration :=
  match i.side with
  | .config => (c.withSeverity key s i.reach, p)
  | .preset => (c, p.withSeverity key s i.reach)

/-- The severity of a file is what the spot says, whatever severity it is given. -/
def Decides (route : Configuration → Configuration → ResolvedConfig) (c p : Configuration)
    (path key : String) (i : Spot) : Prop :=
  (i.severity c p key).isSome ∧ ∀ s,
    ((route (i.change c p key s).1 (i.change c p key s).2).scopeFor path).severityOf key = some s

/-- The first spot goes before the second one if the preset lies on disk, and after it if the preset
is published. Apart from the spots of the pattern of every file, this takes a pattern that is as
specific, and a configuration without a scope for every file. -/
inductive TurnsAround (c p : Configuration) : Spot → Spot → Prop
  /-- The preset's scope of every file, and settings outside of scopes. -/
  | scope {side : Side} : TurnsAround c p ⟨.preset, .within globalScope⟩ ⟨side, .everywhere⟩
  /-- The configuration has settings for every file, whose place is kept if the preset is
  published. On disk, they go where the preset has its scope. -/
  | kept {i j : Spot} (hown : (ResolvedConfig.globalOverride c).isEmpty = false)
    (hnew : globalScope ∉ c.patterns) (hi : i.reach.pattern = globalScope)
    (hspecific : specificity j.reach.pattern = specificity globalScope)
    (hj : globalScope ∈ p.patterns ∧ j.reach.pattern ∈ c.patterns ∨
      [j.reach.pattern, globalScope] <+ p.patterns) : TurnsAround c p i j
  /-- The settings of the preset for every file come in before its scopes if it is published. -/
  | brought {i j : Spot} (hnone : (ResolvedConfig.globalOverride c).isEmpty = true)
    (hown : (ResolvedConfig.globalOverride p).isEmpty = false)
    (hnew : globalScope ∉ c.patterns) (hi : i.reach.pattern = globalScope)
    (hspecific : specificity j.reach.pattern = specificity globalScope)
    (hj : j.reach.pattern ∉ c.patterns ∧ [j.reach.pattern, globalScope] <+ p.patterns) :
    TurnsAround c p i j
  /-- The settings of the preset for every file come first on disk, and after the scopes of the
  configuration if it is published. -/
  | appended {i j : Spot} (hnone : (ResolvedConfig.globalOverride c).isEmpty = true)
    (hown : (ResolvedConfig.globalOverride p).isEmpty = false)
    (hnew : globalScope ∉ c.patterns ∧ globalScope ∉ p.patterns)
    (hj : j.reach.pattern = globalScope)
    (hspecific : specificity i.reach.pattern = specificity globalScope)
    (hi : i.reach.pattern ∈ c.patterns) : TurnsAround c p i j

end Spot

namespace ResolvedConfig

/-- A configuration with a preset that lies on disk. -/
def withPreset (c p : Configuration) : ResolvedConfig := ofMerged (c.merge p) []

/-- A configuration with a preset that a plugin publishes under a name. -/
def withPublished (name : String) (c p : Configuration) : ResolvedConfig :=
  (ofMerged c []).mergePreset name p

/-! ## The order of patterns on either route -/

/-- The patterns in order if the preset lies on disk. -/
def patternsOnDisk (c p : Configuration) : List String :=
  if globalScope ∈ union c.patterns p.patterns then union c.patterns p.patterns
  else globalScope :: union c.patterns p.patterns

/-- The patterns in order if the preset is published. -/
def patternsPublished (c p : Configuration) : List String :=
  union (union (Table.names (ofMerged c []).scopes) (Table.names (globalScopes p))) p.patterns

section

variable {c p : Configuration}

theorem nodup_patternsOnDisk (hc : c.WellFormed) : (patternsOnDisk c p).Nodup := by
  unfold patternsOnDisk
  split
  · exact nodup_union (nodup_patterns hc) _
  · rename_i h
    exact List.nodup_cons.mpr ⟨h, nodup_union (nodup_patterns hc) _⟩

theorem nodup_patternsPublished (hc : c.WellFormed) : (patternsPublished c p).Nodup :=
  nodup_union (nodup_union (wellFormed_ofMerged_nil hc).distinct _) _

/-- The two routes list the same patterns, and only the pattern of every file at different
places. -/
theorem filter_patterns_eq (hc : c.WellFormed) :
    (patternsOnDisk c p).filter (· != globalScope) =
      (patternsPublished c p).filter (· != globalScope) := by
  have hglobal : ∀ d : Configuration,
      (Table.names (globalScopes d)).filter (· != globalScope) = [] := by
    intro d
    refine List.filter_eq_nil_iff.mpr fun name hname => ?_
    simp [List.mem_singleton.mp ((names_globalScopes d).subset hname)]
  have hown : (Table.names (ofMerged c []).scopes).filter (· != globalScope) =
      c.patterns.filter (· != globalScope) := by
    have hempty : ((Table.names (globalScopes c)).filter (· ∉ c.patterns)).filter
        (· != globalScope) = [] := by
      rw [List.filter_filter]
      refine List.filter_eq_nil_iff.mpr fun name hname => ?_
      simp [List.mem_singleton.mp ((names_globalScopes c).subset hname)]
    rw [names_ofMerged hc, List.filter_append, hempty, List.nil_append]
  have hdisk : (patternsOnDisk c p).filter (· != globalScope) =
      (union c.patterns p.patterns).filter (· != globalScope) := by
    unfold patternsOnDisk
    split
    · rfl
    · exact List.filter_cons_of_neg (by simp)
  rw [hdisk, patternsPublished, filter_union, filter_union, filter_union, hown, hglobal, union_nil]

/-- Two patterns whose order depends on the route: one of them is that of every file. -/
theorem eq_globalScope_of_swap (hc : c.WellFormed) {x y : String}
    (hdisk : [y, x] <+ patternsOnDisk c p) (hpublished : [x, y] <+ patternsPublished c p) :
    x = globalScope ∨ y = globalScope := by
  by_cases hx : x = globalScope
  · exact Or.inl hx
  · by_cases hy : y = globalScope
    · exact Or.inr hy
    · exfalso
      have hfilter := hdisk.filter (· != globalScope)
      have hpair : [y, x].filter (· != globalScope) = [y, x] := by
        simp [hx, hy]
      rw [hpair, filter_patterns_eq hc] at hfilter
      exact not_sublist_swap (nodup_patternsPublished hc) hpublished
        (hfilter.trans List.filter_sublist)

/-- The published patterns in the four cases that there are. -/
theorem patternsPublished_of_mem (hc : c.WellFormed) (h : globalScope ∈ c.patterns) :
    patternsPublished c p = union c.patterns p.patterns := by
  have hempty : ∀ d, (Table.names (globalScopes d)).filter (· ∉ c.patterns) = [] := by
    intro d
    refine List.filter_eq_nil_iff.mpr fun name hname => ?_
    simp [List.mem_singleton.mp ((names_globalScopes d).subset hname), h]
  have hglobal : union c.patterns (Table.names (globalScopes p)) = c.patterns := by
    rw [names_globalScopes_eq]
    split
    · rfl
    · rw [union_singleton, if_pos h]
  rw [patternsPublished, names_ofMerged hc, hempty, List.nil_append, hglobal]

theorem names_ofMerged_of_not_mem (hc : c.WellFormed) (h : globalScope ∉ c.patterns) :
    Table.names (ofMerged c []).scopes = Table.names (globalScopes c) ++ c.patterns := by
  rw [names_ofMerged hc, List.filter_eq_self.mpr fun name hname => ?_]
  simp [List.mem_singleton.mp ((names_globalScopes c).subset hname), h]

theorem patternsPublished_of_own (hc : c.WellFormed) (h : globalScope ∉ c.patterns)
    (hown : (globalOverride c).isEmpty = false) :
    patternsPublished c p = union (globalScope :: c.patterns) p.patterns := by
  have hglobal : union (globalScope :: c.patterns) (Table.names (globalScopes p)) =
      globalScope :: c.patterns := by
    rw [names_globalScopes_eq]
    split
    · rfl
    · rw [union_singleton, if_pos List.mem_cons_self]
  rw [patternsPublished, names_ofMerged_of_not_mem hc h, names_globalScopes_eq c, hown,
    if_neg (by simp), List.singleton_append, hglobal]

theorem patternsPublished_of_preset (hc : c.WellFormed) (h : globalScope ∉ c.patterns)
    (hnone : (globalOverride c).isEmpty = true) (hown : (globalOverride p).isEmpty = false) :
    patternsPublished c p = union (c.patterns ++ [globalScope]) p.patterns := by
  rw [patternsPublished, names_ofMerged_of_not_mem hc h, names_globalScopes_eq, hnone, if_pos rfl,
    List.nil_append, names_globalScopes_eq, hown, if_neg (by simp), union_singleton, if_neg h]

theorem patternsPublished_of_none (hc : c.WellFormed) (h : globalScope ∉ c.patterns)
    (hnone : (globalOverride c).isEmpty = true) (hnone' : (globalOverride p).isEmpty = true) :
    patternsPublished c p = union c.patterns p.patterns := by
  rw [patternsPublished, names_ofMerged_of_not_mem hc h, names_globalScopes_eq, hnone, if_pos rfl,
    List.nil_append, names_globalScopes_eq, hnone', if_pos rfl, union_nil]

theorem patternsOnDisk_of_mem (h : globalScope ∈ c.patterns ∨ globalScope ∈ p.patterns) :
    patternsOnDisk c p = union c.patterns p.patterns := if_pos (mem_union.mpr h)

theorem patternsOnDisk_of_not_mem (h : globalScope ∉ c.patterns) (h' : globalScope ∉ p.patterns) :
    patternsOnDisk c p = globalScope :: union c.patterns p.patterns :=
  if_neg fun hmem => (mem_union.mp hmem).elim h h'

/-- On disk, the pattern of every file comes after another one only where the preset has a scope of
every file. -/
theorem mem_patterns_of_before (hc : c.WellFormed) {x : String}
    (h : [x, globalScope] <+ patternsOnDisk c p) (hnew : globalScope ∉ c.patterns) :
    globalScope ∈ p.patterns := by
  by_cases hp : globalScope ∈ p.patterns
  · exact hp
  · have hnodup := nodup_patternsOnDisk (p := p) hc
    rw [patternsOnDisk_of_not_mem hnew hp] at h hnodup
    exact absurd h (not_pair_sublist_head hnodup)

section

variable {i j : Spot}

theorem turnsAround_of_own (hc : c.WellFormed) (hp : p.WellFormed)
    (hnew : globalScope ∉ c.patterns) (hown : (globalOverride c).isEmpty = false)
    (hspecific : specificity i.reach.pattern = specificity j.reach.pattern)
    (hdisk : [j.reach.pattern, i.reach.pattern] <+ patternsOnDisk c p)
    (hpublished : [i.reach.pattern, j.reach.pattern] <+ patternsPublished c p) :
    Spot.TurnsAround c p i j := by
  rcases eq_globalScope_of_swap hc hdisk hpublished with hi | hj
  · rw [hi] at hdisk hspecific
    have hmem := mem_patterns_of_before hc hdisk hnew
    rw [patternsOnDisk_of_mem (Or.inr hmem)] at hdisk
    refine .kept hown hnew hi hspecific.symm ?_
    exact (mem_or_pair_sublist (nodup_patterns hp) hdisk).imp_left fun h => ⟨hmem, h⟩
  · have hnodup := nodup_patternsPublished (p := p) hc
    rw [patternsPublished_of_own hc hnew hown, union_eq_append, List.cons_append]
      at hpublished hnodup
    rw [hj] at hpublished
    exact absurd hpublished (not_pair_sublist_head hnodup)

theorem turnsAround_of_preset (hc : c.WellFormed) (hp : p.WellFormed)
    (hnew : globalScope ∉ c.patterns) (hnone : (globalOverride c).isEmpty = true)
    (hown : (globalOverride p).isEmpty = false)
    (hspecific : specificity i.reach.pattern = specificity j.reach.pattern)
    (hdisk : [j.reach.pattern, i.reach.pattern] <+ patternsOnDisk c p)
    (hpublished : [i.reach.pattern, j.reach.pattern] <+ patternsPublished c p) :
    Spot.TurnsAround c p i j := by
  have hone := eq_globalScope_of_swap hc hdisk hpublished
  have hnodup := nodup_patternsPublished (p := p) hc
  rw [patternsPublished_of_preset hc hnew hnone hown] at hpublished hnodup
  rcases hone with hi | hj
  · rw [hi] at hdisk hspecific hpublished
    have hmem := mem_patterns_of_before hc hdisk hnew
    rw [patternsOnDisk_of_mem (Or.inr hmem)] at hdisk
    have hout : j.reach.pattern ∉ c.patterns := by
      intro hin
      have hpair := pair_sublist_append hin globalScope
      rw [union_eq_append] at hpublished hnodup
      exact not_sublist_swap hnodup hpublished (hpair.trans (List.sublist_append_left _ _))
    exact .brought hnone hown hnew hi hspecific.symm
      ⟨hout, (mem_or_pair_sublist (nodup_patterns hp) hdisk).resolve_left hout⟩
  · rw [hj] at hdisk hspecific hpublished
    have hin : i.reach.pattern ∈ c.patterns ++ [globalScope] := by
      by_cases hin : i.reach.pattern ∈ c.patterns ++ [globalScope]
      · exact hin
      · have hmem := mem_union.mp (hpublished.subset List.mem_cons_self)
        have hpair := pair_sublist_union (List.mem_append_right c.patterns List.mem_cons_self)
          (hmem.resolve_left hin) hin
        exact absurd hpair (not_sublist_swap hnodup hpublished)
    have hne : i.reach.pattern ≠ globalScope := by
      intro hi
      rw [hi] at hdisk
      exact not_sublist_swap (nodup_patternsOnDisk hc) hdisk hdisk
    have hold : i.reach.pattern ∈ c.patterns :=
      (List.mem_append.mp hin).resolve_right fun h => hne (List.mem_singleton.mp h)
    have hout : globalScope ∉ p.patterns := by
      intro hmem
      have hnodupDisk := nodup_patternsOnDisk (p := p) hc
      rw [patternsOnDisk_of_mem (Or.inr hmem)] at hdisk hnodupDisk
      exact not_sublist_swap hnodupDisk hdisk (pair_sublist_union hold hmem hnew)
    exact .appended hnone hown ⟨hnew, hout⟩ hj hspecific hold

/-- Two spots whose patterns change their order with the route. -/
theorem turnsAround_of_swap (hc : c.WellFormed) (hp : p.WellFormed)
    (hspecific : specificity i.reach.pattern = specificity j.reach.pattern)
    (hdisk : [j.reach.pattern, i.reach.pattern] <+ patternsOnDisk c p)
    (hpublished : [i.reach.pattern, j.reach.pattern] <+ patternsPublished c p) :
    Spot.TurnsAround c p i j := by
  by_cases hnew : globalScope ∈ c.patterns
  · rw [patternsOnDisk_of_mem (Or.inl hnew), ← patternsPublished_of_mem hc hnew] at hdisk
    exact absurd hdisk (not_sublist_swap (nodup_patternsPublished hc) hpublished)
  · cases hown : (globalOverride c).isEmpty with
    | false => exact turnsAround_of_own hc hp hnew hown hspecific hdisk hpublished
    | true =>
      cases hown' : (globalOverride p).isEmpty with
      | false => exact turnsAround_of_preset hc hp hnew hown hown' hspecific hdisk hpublished
      | true =>
        rw [patternsPublished_of_none hc hnew hown hown'] at hpublished
        have hlisted : union c.patterns p.patterns <+ patternsOnDisk c p := by
          unfold patternsOnDisk
          split
          · exact List.Sublist.refl _
          · exact List.sublist_cons_self _ _
        exact absurd hdisk
          (not_sublist_swap (nodup_patternsOnDisk hc) (hpublished.trans hlisted))

end

/-! ## What the scopes say on either route -/

theorem scopeSeverity_withPublished (hp : p.WellFormed) (name key pattern : String) :
    scopeSeverity (withPublished name c p).scopes key pattern =
      ((scopeSeverity (ofMerged c []).scopes key pattern).or
        (scopeSeverity (globalScopes p) key pattern)).or
          (p.severityIn key (.within pattern)) := by
  have hupper := Table.find?_mergeWith ScopeOverride.merge (ofMerged c []).scopes
    (distinct_globalScopes p) pattern
  have hfind := Table.find?_mergeWith ScopeOverride.merge
    (Table.mergeWith ScopeOverride.merge (ofMerged c []).scopes (globalScopes p))
    (distinct_scopes_getD hp) pattern
  rw [← scopeSeverity_merge hupper fun o ho => wellFormed_of_find?_globalScopes hp ho]
  exact scopeSeverity_merge hfind (fun o ho => hp.of_find? ho) key

theorem mem_scopeSkip_withPublished (hp : p.WellFormed) {name pattern linter : String} :
    linter ∈ scopeSkip (withPublished name c p).scopes pattern ↔
      (linter ∈ scopeSkip (ofMerged c []).scopes pattern ∨
        linter ∈ scopeSkip (globalScopes p) pattern) ∨ linter ∈ p.skipIn (.within pattern) := by
  have hupper := Table.find?_mergeWith ScopeOverride.merge (ofMerged c []).scopes
    (distinct_globalScopes p) pattern
  have hfind := Table.find?_mergeWith ScopeOverride.merge
    (Table.mergeWith ScopeOverride.merge (ofMerged c []).scopes (globalScopes p))
    (distinct_scopes_getD hp) pattern
  rw [← mem_scopeSkip_merge hupper]
  exact mem_scopeSkip_merge hfind

/-- At each pattern, the same linters are skipped on either route. -/
theorem mem_scopeSkip_routes (hc : c.WellFormed) (hp : p.WellFormed) (name : String)
    {pattern linter : String} :
    linter ∈ scopeSkip (withPreset c p).scopes pattern ↔
      linter ∈ scopeSkip (withPublished name c p).scopes pattern := by
  rw [withPreset, mem_scopeSkip_ofMerged (hc.merge hp), mem_skipIn_merge hp, mem_skipIn_merge hp,
    mem_scopeSkip_withPublished hp, mem_scopeSkip_ofMerged hc, mem_scopeSkip_globalScopes,
    and_or_left]
  show _ ↔ ((_ ∨ _) ∨ pattern = globalScope ∧ linter ∈ p.skipIn .everywhere) ∨ _
  constructor
  · rintro ((h | h) | h | h)
    · exact Or.inl (Or.inl (Or.inl h))
    · exact Or.inr h
    · exact Or.inl (Or.inl (Or.inr h))
    · exact Or.inl (Or.inr h)
  · rintro (((h | h) | h) | h)
    · exact Or.inl (Or.inl h)
    · exact Or.inr (Or.inl h)
    · exact Or.inr (Or.inr h)
    · exact Or.inl (Or.inr h)

/-! ## The order of spots on either route -/

/-- The order of the spots of one pattern if the preset lies on disk: scopes first. -/
def rankOnDisk : Spot → Nat
  | ⟨.config, .within _⟩ => 0
  | ⟨.preset, .within _⟩ => 1
  | ⟨.config, .everywhere⟩ => 2
  | ⟨.preset, .everywhere⟩ => 3

/-- The order of the spots of one pattern if the preset is published: its scope last. -/
def rankPublished : Spot → Nat
  | ⟨.config, .within _⟩ => 0
  | ⟨.config, .everywhere⟩ => 1
  | ⟨.preset, .everywhere⟩ => 2
  | ⟨.preset, .within _⟩ => 3

def spotsOnDisk (c p : Configuration) : Contributions Spot where
  pattern i := i.reach.pattern
  Above i j := rankOnDisk i < rankOnDisk j
  listed := patternsOnDisk c p

def spotsPublished (c p : Configuration) : Contributions Spot where
  pattern i := i.reach.pattern
  Above i j := rankPublished i < rankPublished j
  listed := patternsPublished c p

theorem lawful_spotsOnDisk (hc : c.WellFormed) : (spotsOnDisk c p).Lawful :=
  ⟨nodup_patternsOnDisk hc, fun _ _ h h' => Nat.lt_asymm h h'⟩

theorem lawful_spotsPublished (hc : c.WellFormed) : (spotsPublished c p).Lawful :=
  ⟨nodup_patternsPublished hc, fun _ _ h h' => Nat.lt_asymm h h'⟩

/-- The spots of one pattern in order, if the preset lies on disk. -/
def stackOnDisk (pattern : String) : List Spot :=
  [⟨.config, .within pattern⟩, ⟨.preset, .within pattern⟩] ++
    if pattern = globalScope then [⟨.config, .everywhere⟩, ⟨.preset, .everywhere⟩] else []

/-- The spots of one pattern in order, if the preset is published. -/
def stackPublished (pattern : String) : List Spot :=
  ⟨.config, .within pattern⟩ ::
    ((if pattern = globalScope then [⟨.config, .everywhere⟩, ⟨.preset, .everywhere⟩] else []) ++
      [⟨.preset, .within pattern⟩])

theorem mem_stackOnDisk_iff {i : Spot} {pattern : String} :
    i ∈ stackOnDisk pattern ↔ i.reach.pattern = pattern := by
  obtain ⟨side, reach⟩ := i
  unfold stackOnDisk
  by_cases h : pattern = globalScope
  · subst h
    cases side <;> cases reach <;> simp [Reach.pattern]
  · have h' : ¬ globalScope = pattern := fun e => h e.symm
    cases side <;> cases reach <;> simp [Reach.pattern, h, h']

theorem mem_stackPublished_iff {i : Spot} {pattern : String} :
    i ∈ stackPublished pattern ↔ i.reach.pattern = pattern := by
  obtain ⟨side, reach⟩ := i
  unfold stackPublished
  by_cases h : pattern = globalScope
  · subst h
    cases side <;> cases reach <;> simp [Reach.pattern]
  · have h' : ¬ globalScope = pattern := fun e => h e.symm
    cases side <;> cases reach <;> simp [Reach.pattern, h, h']

theorem names_withPreset (hc : c.WellFormed) (hp : p.WellFormed) :
    Table.names (withPreset c p).scopes <+ patternsOnDisk c p := by
  rw [withPreset, names_ofMerged (hc.merge hp), Configuration.patterns_merge, patternsOnDisk]
  have hglobal := (names_globalScopes (c.merge p)).filter (· ∉ union c.patterns p.patterns)
  split
  · rename_i hmem
    have hnil : [globalScope].filter (· ∉ union c.patterns p.patterns) = [] := by
      rw [List.filter_cons_of_neg (by simpa only [decide_not, hmem] using by simp), List.filter_nil]
    rw [hnil] at hglobal
    exact hglobal.append (List.Sublist.refl _)
  · exact (hglobal.trans List.filter_sublist).append (List.Sublist.refl _)

/-- What the first of the spots for every file says. -/
theorem findSome?_everywhere (c p : Configuration) (key pattern : String) :
    (if pattern = globalScope then [(⟨.config, .everywhere⟩ : Spot), ⟨.preset, .everywhere⟩]
      else []).findSome? (Spot.severity c p key) =
      if pattern = globalScope then
        (c.severityIn key .everywhere).or (p.severityIn key .everywhere)
      else none := by
  split
  · simp only [List.findSome?_cons, List.findSome?_nil, Spot.severity]
    cases c.severityIn key .everywhere <;> cases p.severityIn key .everywhere <;> rfl
  · rfl

theorem renders_withPreset (hc : c.WellFormed) (hp : p.WellFormed) (key : String) :
    (spotsOnDisk c p).Renders (Spot.severity c p key) key (withPreset c p).scopes := by
  refine .of_stack (names_withPreset hc hp) stackOnDisk (fun pattern => ?_)
    (fun i pattern hi => mem_stackOnDisk_iff.mp hi) (fun i _ => mem_stackOnDisk_iff.mpr rfl)
    fun pattern => ?_
  · unfold stackOnDisk
    split <;> simp [spotsOnDisk, rankOnDisk]
  · rw [withPreset, scopeSeverity_ofMerged (hc.merge hp), Configuration.severityIn_merge _ hp,
      Configuration.severityIn_merge _ hp, stackOnDisk, List.findSome?_append,
      findSome?_everywhere]
    simp only [List.findSome?_cons, List.findSome?_nil, Spot.severity]
    cases c.severityIn key (.within pattern) <;> cases p.severityIn key (.within pattern) <;> rfl

theorem renders_withPublished (hc : c.WellFormed) (hp : p.WellFormed) (name key : String) :
    (spotsPublished c p).Renders (Spot.severity c p key) key (withPublished name c p).scopes := by
  have hnames : Table.names (withPublished name c p).scopes <+ patternsPublished c p := by
    rw [withPublished, names_mergePreset]
    exact List.Sublist.refl _
  refine .of_stack hnames stackPublished (fun pattern => ?_)
    (fun i pattern hi => mem_stackPublished_iff.mp hi)
    (fun i _ => mem_stackPublished_iff.mpr rfl) fun pattern => ?_
  · unfold stackPublished
    split <;> simp [spotsPublished, rankPublished]
  · rw [scopeSeverity_withPublished hp, scopeSeverity_ofMerged hc, scopeSeverity_globalScopes,
      stackPublished, List.findSome?_cons, List.findSome?_append, findSome?_everywhere]
    simp only [List.findSome?_cons, List.findSome?_nil, Spot.severity]
    by_cases h : pattern = globalScope
    · simp only [h, if_true]
      cases c.severityIn key (.within globalScope) <;> cases c.severityIn key .everywhere <;>
        cases p.severityIn key .everywhere <;> cases p.severityIn key (.within globalScope) <;> rfl
    · simp only [h, if_false]
      cases c.severityIn key (.within pattern) <;> cases p.severityIn key (.within pattern) <;> rfl

end

/-! ## Another severity at a spot -/

section

variable {c p : Configuration} {i : Spot} {key : String}

theorem wellFormed_change (hc : c.WellFormed) (hp : p.WellFormed) (i : Spot) (key : String)
    (s : Severity) : (i.change c p key s).1.WellFormed ∧ (i.change c p key s).2.WellFormed := by
  obtain ⟨side, reach⟩ := i
  cases side with
  | config => exact ⟨hc.withSeverity key s reach, hp⟩
  | preset => exact ⟨hc, hp.withSeverity key s reach⟩

theorem severity_change (c p : Configuration) (key : String) (i : Spot) (s : Severity) (j : Spot) :
    j.severity (i.change c p key s).1 (i.change c p key s).2 key =
      if j = i then some s else j.severity c p key := by
  obtain ⟨side, reach⟩ := i
  obtain ⟨side', reach'⟩ := j
  cases side <;> cases side' <;>
    simp [Spot.severity, Spot.change, Configuration.severityIn_withSeverity]

theorem patterns_change (h : (i.severity c p key).isSome) (s : Severity) :
    (i.change c p key s).1.patterns = c.patterns ∧
      (i.change c p key s).2.patterns = p.patterns := by
  obtain ⟨side, reach⟩ := i
  cases side with
  | config => exact ⟨Configuration.patterns_withSeverity h s, rfl⟩
  | preset => exact ⟨rfl, Configuration.patterns_withSeverity h s⟩

theorem spotsOnDisk_change (h : (i.severity c p key).isSome) (s : Severity) :
    spotsOnDisk (i.change c p key s).1 (i.change c p key s).2 = spotsOnDisk c p := by
  simp only [spotsOnDisk, patternsOnDisk, patterns_change h s]

theorem spotsPublished_change (hc : c.WellFormed) (h : (i.severity c p key).isSome)
    (s : Severity) :
    spotsPublished (i.change c p key s).1 (i.change c p key s).2 = spotsPublished c p := by
  have hlisted : patternsPublished (i.change c p key s).1 (i.change c p key s).2 =
      patternsPublished c p := by
    rw [patternsPublished, (patterns_change h s).2]
    obtain ⟨side, reach⟩ := i
    cases side with
    | config =>
      rw [Spot.change, names_ofMerged_withSeverity hc h]
      rfl
    | preset =>
      rw [Spot.change, names_globalScopes_withSeverity h]
      rfl
  rw [spotsPublished, hlisted]
  rfl

theorem wellFormed_withPreset (hc : c.WellFormed) (hp : p.WellFormed) :
    (withPreset c p).WellFormed := wellFormed_ofMerged_nil (hc.merge hp)

theorem wellFormed_withPublished (hc : c.WellFormed) (hp : p.WellFormed) (name : String) :
    (withPublished name c p).WellFormed := (wellFormed_ofMerged_nil hc).mergePreset hp name

theorem decides_withPreset_iff (hc : c.WellFormed) (hp : p.WellFormed) (path : String) :
    i.Decides withPreset c p path key ↔
      (spotsOnDisk c p).Leads (Spot.severity c p key) path i := by
  refine Contributions.decides_iff_leads (lawful_spotsOnDisk hc)
    (fun _ => severity_change c p key i) (fun s => ?_) (fun hsome s => ?_) path
  · obtain ⟨hc', hp'⟩ := wellFormed_change hc hp i key s
    exact wellFormed_withPreset hc' hp'
  · obtain ⟨hc', hp'⟩ := wellFormed_change hc hp i key s
    rw [← spotsOnDisk_change hsome s]
    exact renders_withPreset hc' hp' key

theorem decides_withPublished_iff (hc : c.WellFormed) (hp : p.WellFormed) (name path : String) :
    i.Decides (withPublished name) c p path key ↔
      (spotsPublished c p).Leads (Spot.severity c p key) path i := by
  refine Contributions.decides_iff_leads (lawful_spotsPublished hc)
    (fun _ => severity_change c p key i) (fun s => ?_) (fun hsome s => ?_) path
  · obtain ⟨hc', hp'⟩ := wellFormed_change hc hp i key s
    exact wellFormed_withPublished hc' hp' name
  · obtain ⟨hc', hp'⟩ := wellFormed_change hc hp i key s
    rw [← spotsPublished_change hc hsome s]
    exact renders_withPublished hc' hp' name key

end

/-! ## When the routes agree -/

section

variable {c p : Configuration} {i j : Spot} {path key : String}

/-- Two spots of one pattern whose order depends on the route. -/
theorem turnsAround_of_rank (hpattern : i.reach.pattern = j.reach.pattern)
    (hdisk : rankOnDisk i < rankOnDisk j) (hpublished : rankPublished j < rankPublished i) :
    Spot.TurnsAround c p i j := by
  rcases i with ⟨_ | _, _ | q⟩ <;> rcases j with ⟨_ | _, _ | q'⟩ <;>
    simp only [rankOnDisk, rankPublished] at hdisk hpublished <;> try omega
  · obtain rfl : q = globalScope := hpattern
    exact .scope
  · obtain rfl : q = globalScope := hpattern
    exact .scope

/-- Whoever decides on disk and whoever decides when the preset is published are the same, or their
order depends on the route. -/
theorem eq_or_turnsAround (hc : c.WellFormed) (hp : p.WellFormed) {stated : Spot → Option Severity}
    (hi : (spotsOnDisk c p).Leads stated path i) (hj : (spotsPublished c p).Leads stated path j) :
    i = j ∨ Spot.TurnsAround c p i j := by
  rcases hi.eq_or_swapped (lawful_spotsOnDisk hc) (lawful_spotsPublished hc) hj
    (fun _ => Iff.rfl) Iff.rfl with heq | ⟨hrank, hrank'⟩ | ⟨hpattern, habove, habove'⟩
  · exact Or.inl heq
  · right
    -- Both orders know the same specificity, so that only the lists can differ.
    rcases hrank with hlt | ⟨hspecific, hlisted⟩
    · rcases hrank' with hlt' | ⟨hspecific, -⟩
      · exact absurd hlt' (Nat.lt_asymm hlt)
      · exact absurd hspecific (Nat.ne_of_lt hlt)
    · rcases hrank' with hlt | ⟨-, hlisted'⟩
      · exact absurd hspecific.symm (Nat.ne_of_gt hlt)
      · exact turnsAround_of_swap hc hp hspecific hlisted hlisted'
  · exact Or.inr (turnsAround_of_rank hpattern habove habove')

theorem getD_unionOption (a b : Option (List String)) :
    (unionOption a b).getD [] = union (a.getD []) (b.getD []) := by
  cases b <;> rfl

theorem getD_mergeTables {α : Type} (f : α → α → α) (a b : Option (Table α)) :
    (mergeTables f a b).getD [] = Table.mergeWith f (a.getD []) (b.getD []) := by
  cases b <;> rfl

/-- A preset on disk and the same preset published by a plugin give the same lists and options, and
let the same linters leave a file alone. They give a key the same severity if and only if two spots
that decide it, one on either route, and whose order depends on the route, say the same. -/
theorem routes_agree_iff (hc : c.WellFormed) (hp : p.WellFormed) (name path : String) :
    (withPreset c p).included = (withPublished name c p).included ∧
      (withPreset c p).excluded = (withPublished name c p).excluded ∧
      (withPreset c p).extensions = (withPublished name c p).extensions ∧
      (withPreset c p).linterConfig = (withPublished name c p).linterConfig ∧
      (∀ linter, ((withPreset c p).scopeFor path).skips linter =
        ((withPublished name c p).scopeFor path).skips linter) ∧
      ∀ key, ((withPreset c p).scopeFor path).severityOf key =
          ((withPublished name c p).scopeFor path).severityOf key ↔
        ∀ i j, Spot.TurnsAround c p i j → i.Decides withPreset c p path key →
          j.Decides (withPublished name) c p path key →
          i.severity c p key = j.severity c p key := by
  have hdisk := wellFormed_withPreset hc hp
  have hpublished := wellFormed_withPublished hc hp name
  refine ⟨getD_unionOption _ _, getD_unionOption _ _, getD_unionOption _ _, getD_mergeTables _ _ _,
    fun linter => Bool.eq_iff_iff.mpr ?_, fun key => ?_⟩
  · simp only [skips_scopeFor_iff hdisk.distinct, skips_scopeFor_iff hpublished.distinct,
      mem_scopeSkip_routes hc hp name]
  · have hspeaks : ∀ i, (spotsOnDisk c p).Speaks (Spot.severity c p key) path i ↔
        (spotsPublished c p).Speaks (Spot.severity c p key) path i := fun _ => Iff.rfl
    simp only [decides_withPreset_iff hc hp, decides_withPublished_iff hc hp]
    exact Contributions.agree_iff_of_related (lawful_spotsOnDisk hc) (lawful_spotsPublished hc)
      hdisk hpublished (renders_withPreset hc hp key) (renders_withPublished hc hp name key) hspeaks
      fun _ _ hi hj => eq_or_turnsAround hc hp hi hj

end

/-- A preset with a severity for every file. -/
def strictPreset : Configuration := { severity := some [("naming", .error)] }

theorem wellFormed_strictPreset : strictPreset.WellFormed := by
  refine ⟨?_, by simp [strictPreset], by simp [strictPreset], by simp [strictPreset]⟩
  rintro t ⟨⟩
  decide

/-- A scope of the configuration goes before the preset's settings on disk, and after them if they
are published. -/
theorem routes_differ :
    (singleScope "*.ts" "naming" .off).WellFormed ∧ strictPreset.WellFormed ∧
      (singleScope "*.ts" "naming" .off).inherited = none ∧
      strictPreset.inherited = none ∧ strictPreset.plugins = none ∧
      ((withPreset (singleScope "*.ts" "naming" .off) strictPreset).scopeFor "a.ts").severityOf
        "naming" = some .off ∧
      ((withPublished "preset" (singleScope "*.ts" "naming" .off) strictPreset).scopeFor
        "a.ts").severityOf "naming" = some .error :=
  ⟨wellFormed_singleScope _ _ _, wellFormed_strictPreset, rfl, rfl, rfl, by decide +kernel,
    by decide +kernel⟩

/-- A configuration with the same scope and another one for a single file. -/
def scopesOfOneFile : Configuration :=
  { scopes := some [("*.ts", { severity := some [("naming", .off)] }),
      ("a.ts", { severity := some [("naming", .warn)] })] }

theorem wellFormed_scopesOfOneFile : scopesOfOneFile.WellFormed := by
  refine ⟨by simp [scopesOfOneFile], by simp [scopesOfOneFile], ?_, ?_⟩
  · rintro t ⟨⟩
    decide
  · rintro t ⟨⟩ entry hentry
    simp only [List.mem_cons, List.not_mem_nil, or_false] at hentry
    rcases hentry with rfl | rfl
    · exact ⟨by simp [Table.Distinct, Table.names], by simp⟩
    · exact ⟨by simp [Table.Distinct, Table.names], by simp⟩

/-- The scope of the single file decides on either route. -/
theorem routes_agree_on_one_file :
    scopesOfOneFile.WellFormed ∧ strictPreset.WellFormed ∧
      Spot.TurnsAround scopesOfOneFile strictPreset ⟨.config, .within "*.ts"⟩
        ⟨.preset, .everywhere⟩ ∧
      ((withPreset scopesOfOneFile strictPreset).scopeFor "a.ts").severityOf "naming" =
        ((withPublished "preset" scopesOfOneFile strictPreset).scopeFor "a.ts").severityOf
          "naming" := by
  have hagree := routes_agree_iff wellFormed_scopesOfOneFile wellFormed_strictPreset "preset" "a.ts"
  refine ⟨wellFormed_scopesOfOneFile, wellFormed_strictPreset, ?_, ?_⟩
  · exact .appended rfl rfl (by decide) rfl (by decide +kernel) (by decide)
  · refine (hagree.2.2.2.2.2 "naming").mpr fun i j hturns hi _ => ?_
    exfalso
    have hleads := (decides_withPreset_iff wellFormed_scopesOfOneFile wellFormed_strictPreset
      "a.ts").mp hi
    have hfile : (spotsOnDisk scopesOfOneFile strictPreset).Speaks
        (Spot.severity scopesOfOneFile strictPreset "naming") "a.ts" ⟨.config, .within "a.ts"⟩ :=
      ⟨by decide +kernel, by decide +kernel⟩
    have hspecific : specificity "a.ts" ≤ specificity i.reach.pattern := by
      rcases hleads.2 _ hfile with rfl | (hlt | ⟨heq, -⟩) | ⟨heq, -⟩
      · exact Nat.le_refl _
      · exact Nat.le_of_lt hlt
      · exact Nat.le_of_eq heq.symm
      · exact Nat.le_of_eq (congrArg specificity heq).symm
    have hzero : specificity i.reach.pattern = specificity globalScope := by
      cases hturns with
      | scope => rfl
      | kept _ _ hi => rw [hi]
      | brought _ _ _ hi => rw [hi]
      | appended _ _ _ _ hspecific => exact hspecific
    rw [hzero] at hspecific
    revert hspecific
    decide +kernel

end ResolvedConfig

end LintFront
