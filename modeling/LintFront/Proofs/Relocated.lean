import LintFront.Proofs.Cycles
import LintFront.Proofs.Loaded
import LintFront.Proofs.Rerooted

/-!
# A configuration that is moved into a directory

A configuration file says something about the files of its directory. In a directory below a
project it should say the same as it would say there if the directory were the project. It skips
the same linters, but two of its places may change their order.

* `Resolver.Swaps`: places of a configuration whose order is not the same behind a directory.
* `Resolver.Alone`: a file that is the only one to count for a project.
* `Resolver.relocated_agrees_iff`: when a file means the same in a directory of a project.
* `Resolver.relocated_differs`: a file that does not.
-/

namespace LintFront

open scoped List

/-- The severity of a file is what a place of the configuration says, whatever that is made to
say. -/
def Reach.Decides (put : Configuration → ResolvedConfig) (c : Configuration) (path key : String)
    (reach : Reach) : Prop :=
  (c.severityIn key reach).isSome ∧
    ∀ s, ((put (c.withSeverity key s reach)).scopeFor path).severityOf key = some s

namespace Resolver

/-- A configuration as that of a whole project. -/
def atRoot (c : Configuration) : ResolvedConfig := .ofMerged (Configuration.mergeAll [c]) []

/-- A configuration as that of a directory of a project that says nothing itself. -/
def relocated (names : Place) (c : Configuration) : ResolvedConfig :=
  .ofMerged {} (bringIn names c [])

/-- The first place goes before the second one if the configuration is that of a project, and after
it if it is that of a directory. -/
inductive Swaps (names : Place) (c : Configuration) : Reach → Reach → Prop
  /-- Behind a name with a brace no pattern is more specific than another one, and the one that is
  listed later goes first. -/
  | brace {x y : Reach} (hbrace : Braced names)
    (hspecific : specificity y.pattern < specificity x.pattern)
    (hlisted : [x.pattern, y.pattern] <+ dedupe (patternsInside c)) : Swaps names c x y
  /-- The settings for every file come in before the scopes, so that the scope of every file goes
  where they are, although it comes later among the scopes. -/
  | moved {x y : Reach} (hown : c.scopePart.isEmpty = false) (hx : x.pattern = globalScope)
    (hspecific : specificity y.pattern = specificity globalScope)
    (hlisted : [y.pattern, globalScope] <+ c.patterns) : Swaps names c x y

/-! ## The places of a configuration in order -/

/-- The places of the configuration of a project. -/
def rootPlaces (c : Configuration) : Contributions Reach where
  pattern := Reach.pattern
  Above := Reach.Over
  listed := Table.names (atRoot c).scopes

/-- The places of the configuration of a directory. -/
def relocatedPlaces (names : Place) (c : Configuration) : Contributions Reach where
  pattern reach := inside names reach.pattern
  Above := Reach.Over
  listed := (dedupe (patternsInside c)).map (inside names)

section

variable {c : Configuration} {names : Place} {key path : String} {x y : Reach}

theorem sound_relocated (hc : c.WellFormed) (names : Place) : Sound (bringIn names c []) :=
  .bringIn hc sound_nil names

theorem wellFormed_mergeAll_singleton (hc : c.WellFormed) :
    (Configuration.mergeAll [c]).WellFormed :=
  Configuration.wellFormed_empty.foldl_merge (by simpa using hc)

theorem wellFormed_atRoot (hc : c.WellFormed) : (atRoot c).WellFormed :=
  ResolvedConfig.wellFormed_ofMerged_nil (wellFormed_mergeAll_singleton hc)

theorem wellFormed_relocated (hc : c.WellFormed) (names : Place) :
    (relocated names c).WellFormed :=
  .ofMerged Configuration.wellFormed_empty (sound_relocated hc names).distinct
    (sound_relocated hc names).scope

theorem isEmpty_globalOverride_mergeAll (hc : c.WellFormed) :
    (ResolvedConfig.globalOverride (Configuration.mergeAll [c])).isEmpty =
      (ResolvedConfig.globalOverride c).isEmpty := by
  have hskip : ((unionOption none c.skip).getD []).isEmpty = (c.skip.getD []).isEmpty := by
    cases c.skip with
    | none => rfl
    | some l =>
      cases l with
      | nil => rfl
      | cons head rest =>
        have hmem : head ∈ union [] (head :: rest) := mem_union.mpr (Or.inr List.mem_cons_self)
        exact List.isEmpty_eq_false_iff_exists_mem.mpr ⟨head, hmem⟩
  have hseverity : (mergeTables keepFirst none c.severity).getD [] = c.severity.getD [] := by
    cases h : c.severity with
    | none => rfl
    | some t => exact Table.mergeWith_nil_left _ (hc.severity t h)
  show (((unionOption none c.skip).getD []).isEmpty &&
    ((mergeTables keepFirst none c.severity).getD []).isEmpty && true) = _
  rw [hskip, hseverity]
  rfl

theorem names_atRoot (hc : c.WellFormed) :
    Table.names (atRoot c).scopes = Table.names (ResolvedConfig.ofMerged c []).scopes := by
  have hpatterns : (Configuration.mergeAll [c]).patterns = c.patterns := by
    rw [Configuration.patterns_mergeAll, List.flatMap_singleton, ← dedupe_eq_eraseDups,
      dedupe_eq_self (ResolvedConfig.nodup_patterns hc)]
  rw [atRoot, ResolvedConfig.names_ofMerged (wellFormed_mergeAll_singleton hc),
    ResolvedConfig.names_ofMerged hc, hpatterns, ResolvedConfig.names_globalScopes_eq,
    ResolvedConfig.names_globalScopes_eq, isEmpty_globalOverride_mergeAll hc]

theorem names_relocated (hc : c.WellFormed) (names : Place) :
    Table.names (relocated names c).scopes = (dedupe (patternsInside c)).map (inside names) := by
  have hnone : Table.names (ResolvedConfig.ofMerged {} []).scopes = [] :=
    rfl
  rw [relocated, names_ofMerged_below _ (sound_relocated hc names), hnone, List.filter_nil,
    List.nil_append, names_bringIn, dedupe, map_union fun p q h => inside_inj.mp h]
  rfl

theorem not_over_swap {i j : Reach} (h : Reach.Over i j) : ¬ Reach.Over j i :=
  fun h' => h'.1 h.2

theorem lawful_rootPlaces (hc : c.WellFormed) : (rootPlaces c).Lawful :=
  ⟨(wellFormed_atRoot hc).distinct, fun _ _ h => not_over_swap h⟩

theorem lawful_relocatedPlaces (hc : c.WellFormed) (names : Place) :
    (relocatedPlaces names c).Lawful where
  nodup := by
    have hdistinct := (wellFormed_relocated hc names).distinct
    unfold Table.Distinct at hdistinct
    rwa [names_relocated hc] at hdistinct
  asymm _ _ h := not_over_swap h

theorem renders_atRoot (hc : c.WellFormed) (key : String) :
    (rootPlaces c).Renders (c.severityIn key) key (atRoot c).scopes := by
  refine .of_stack (List.Sublist.refl _) reachesAt pairwise_reachesAt
    (fun i pattern hi => mem_reachesAt.mp hi) (fun i _ => mem_reachesAt.mpr rfl) fun pattern => ?_
  have hall : ∀ d ∈ [c], d.WellFormed := by simpa using hc
  have hsame : ∀ reach, (Configuration.mergeAll [c]).severityIn key reach =
      c.severityIn key reach := by
    intro reach
    rw [Configuration.severityIn_mergeAll hall, List.findSome?_singleton]
  rw [atRoot, ResolvedConfig.scopeSeverity_ofMerged (wellFormed_mergeAll_singleton hc), hsame,
    hsame, findSome?_reachesAt]

theorem renders_relocated (hc : c.WellFormed) (names : Place) (key : String) :
    (relocatedPlaces names c).Renders (c.severityIn key) key (relocated names c).scopes := by
  refine .of_stack ?_ (reachesBehind names) (pairwise_reachesBehind names)
    (fun i pattern hi => mem_reachesBehind.mp hi) (fun i _ => mem_reachesBehind.mpr rfl)
    fun pattern => ?_
  · rw [names_relocated hc]
    exact List.Sublist.refl _
  · have hnone : scopeSeverity (ResolvedConfig.ofMerged {} []).scopes key
        pattern = none := rfl
    have hnil : scopeSeverity [] key pattern = none := rfl
    rw [relocated, scopeSeverity_ofMerged_below Configuration.wellFormed_empty
      (sound_relocated hc names), hnone, scopeSeverity_bringIn hc sound_nil, hnil, Option.or_none,
      Option.or_none]

/-! ## Which place decides -/

theorem decides_atRoot_iff (hc : c.WellFormed) (path : String) :
    x.Decides atRoot c path key ↔ (rootPlaces c).Leads (c.severityIn key) path x := by
  refine Contributions.decides_iff_leads (lawful_rootPlaces hc)
    (fun _ s j => Configuration.severityIn_withSeverity c key s x j)
    (fun s => wellFormed_atRoot (hc.withSeverity key s x)) (fun hsome s => ?_) path
  have hrenders := renders_atRoot (hc.withSeverity key s x) key
  rwa [rootPlaces, names_atRoot (hc.withSeverity key s x),
    ResolvedConfig.names_ofMerged_withSeverity hc hsome, ← names_atRoot hc] at hrenders

theorem decides_relocated_iff (hc : c.WellFormed) (names : Place) (path : String) :
    x.Decides (relocated names) c path key ↔
      (relocatedPlaces names c).Leads (c.severityIn key) path x := by
  refine Contributions.decides_iff_leads (lawful_relocatedPlaces hc names)
    (fun _ s j => Configuration.severityIn_withSeverity c key s x j)
    (fun s => wellFormed_relocated (hc.withSeverity key s x) names) (fun hsome s => ?_) path
  have hrenders := renders_relocated (hc.withSeverity key s x) names key
  rwa [relocatedPlaces, patternsInside_withSeverity hsome] at hrenders

/-! ## Places that change their order -/

/-- What comes before another pattern among the own settings and the scopes of a configuration, and
after it among the scopes of a project, is the pattern of every file. -/
theorem eq_globalScope_of_swap (hc : c.WellFormed) {p q : String}
    (h : [p, q] <+ dedupe (patternsInside c)) (hroot : [q, p] <+ Table.names (atRoot c).scopes) :
    c.scopePart.isEmpty = false ∧ p = globalScope ∧ [q, globalScope] <+ c.patterns := by
  have hnodup := ResolvedConfig.nodup_patterns hc
  have hdistinct : (dedupe (patternsInside c)).Nodup := nodup_dedupe _
  rw [names_atRoot hc, ResolvedConfig.names_ofMerged hc] at hroot
  rw [dedupe, patternsInside, union_append] at h hdistinct
  cases hempty : c.scopePart.isEmpty with
  | true =>
    rw [hempty, if_pos rfl, union_nil, ← dedupe, dedupe_eq_self hnodup] at h
    have hq : q ∈ c.patterns := h.subset (by simp)
    refine absurd (pair_sublist_of_append hroot fun hmem => ?_) (not_sublist_swap hnodup h)
    simp [hq] at hmem
  | false =>
    have hown : union [] [globalScope] = [globalScope] := rfl
    rw [hempty, if_neg (by simp), hown] at h hdistinct
    have hpatterns : [q, p] <+ c.patterns := by
      refine pair_sublist_of_append hroot fun hmem => ?_
      -- Among the own settings and the scopes, the pattern of every file comes first of all.
      obtain rfl := List.mem_singleton.mp
        ((ResolvedConfig.names_globalScopes c).subset (List.mem_filter.mp hmem).1)
      rw [union_eq_append, List.singleton_append] at h hdistinct
      exact not_pair_sublist_head hdistinct h
    rcases mem_or_pair_sublist hnodup h with hp | hpair
    · obtain rfl := List.mem_singleton.mp hp
      exact ⟨rfl, rfl, hpatterns⟩
    · exact absurd hpatterns (not_sublist_swap hnodup hpair)

theorem swaps_of_outranks (hc : c.WellFormed)
    (h : Outranks (rootPlaces c).listed x.pattern y.pattern)
    (h' : Outranks (relocatedPlaces names c).listed (inside names y.pattern)
      (inside names x.pattern)) : Swaps names c x y := by
  have hle : specificity y.pattern ≤ specificity x.pattern := by
    rcases h with hlt | ⟨heq, -⟩
    · exact Nat.le_of_lt hlt
    · exact Nat.le_of_eq heq.symm
  have hlisted : [x.pattern, y.pattern] <+ dedupe (patternsInside c) := by
    rcases h' with hlt | ⟨-, hpair⟩
    · have hinside := specificity_inside_le names hle
      omega
    · obtain ⟨pair, hpair, heq⟩ := List.sublist_map_iff.mp hpair
      obtain ⟨p, rest, rfl, hp, heq⟩ := List.map_eq_cons_iff.mp heq.symm
      obtain ⟨q, rest, rfl, hq, heq⟩ := List.map_eq_cons_iff.mp heq
      obtain rfl := List.map_eq_nil_iff.mp heq
      rwa [inside_inj.mp hp, inside_inj.mp hq] at hpair
  rcases h with hlt | ⟨heq, hroot⟩
  · refine .brace ?_ hlt hlisted
    -- Without a brace in its name, the directory makes all patterns more specific alike.
    by_cases hbrace : Braced names
    · exact hbrace
    · exfalso
      have hx := specificity_inside_of_not_braced hbrace x.pattern
      have hy := specificity_inside_of_not_braced hbrace y.pattern
      rcases h' with hlt' | ⟨heq', -⟩
      · omega
      · omega
  · obtain ⟨hown, hx, hpatterns⟩ := eq_globalScope_of_swap hc hlisted hroot
    exact .moved hown hx (heq.symm.trans (congrArg specificity hx)) hpatterns

/-- The place that goes first at the root and the one that goes first behind the directory are the
same, or they change their order. -/
theorem eq_or_swaps (hc : c.WellFormed) {stated : Reach → Option Severity} {path' : String}
    (hx : (rootPlaces c).Leads stated path x) (hy : (relocatedPlaces names c).Leads stated path' y)
    (hspeaks : ∀ i, (rootPlaces c).Speaks stated path i ↔
      (relocatedPlaces names c).Speaks stated path' i) : x = y ∨ Swaps names c x y := by
  rcases hx.eq_or_swapped (lawful_rootPlaces hc) (lawful_relocatedPlaces hc names) hy hspeaks
    inside_inj.symm with heq | ⟨hrank, hrank'⟩ | ⟨-, habove, habove'⟩
  · exact Or.inl heq
  · exact Or.inr (swaps_of_outranks hc hrank hrank')
  · exact absurd habove' (not_over_swap habove)

/-! ## What the files of the directory are set to -/

theorem speaks_iff (c : Configuration) (names : Place) (key path : String) (i : Reach) :
    (rootPlaces c).Speaks (c.severityIn key) path i ↔
      (relocatedPlaces names c).Speaks (c.severityIn key) (pathInside names path) i := by
  have hmatch := globMatches_inside names i.pattern path
  unfold Contributions.Speaks
  rw [show (relocatedPlaces names c).pattern i = inside names i.pattern from rfl, hmatch]
  rfl

/-- The severities are the same if and only if no two places that decide, one at the root and one
behind the directory, change their order and say different things. -/
theorem severityOf_relocated_iff (hc : c.WellFormed) (names : Place) (path key : String) :
    ((relocated names c).scopeFor (pathInside names path)).severityOf key =
        ((atRoot c).scopeFor path).severityOf key ↔
      ∀ x y, Swaps names c x y → x.Decides atRoot c path key →
        y.Decides (relocated names) c (pathInside names path) key →
        c.severityIn key x = c.severityIn key y := by
  have hspeaks := speaks_iff c names key path
  rw [eq_comm]
  simp only [decides_atRoot_iff hc, decides_relocated_iff hc]
  exact Contributions.agree_iff_of_related (lawful_rootPlaces hc) (lawful_relocatedPlaces hc names)
    (wellFormed_atRoot hc) (wellFormed_relocated hc names) (renders_atRoot hc key)
    (renders_relocated hc names key) hspeaks fun _ _ hx hy => eq_or_swaps hc hx hy hspeaks

theorem mem_scopeSkip_atRoot (hc : c.WellFormed) {pattern linter : String} :
    linter ∈ scopeSkip (atRoot c).scopes pattern ↔
      ∃ reach : Reach, reach.pattern = pattern ∧ linter ∈ c.skipIn reach := by
  have hskip : ∀ reach, linter ∈ (Configuration.mergeAll [c]).skipIn reach ↔
      linter ∈ c.skipIn reach := by
    intro reach
    have hnil : ({} : Configuration).skipIn reach = [] := by cases reach <;> rfl
    rw [Configuration.mergeAll, List.foldl_cons, List.foldl_nil,
      ResolvedConfig.mem_skipIn_merge hc, hnil]
    simp
  rw [atRoot, ResolvedConfig.mem_scopeSkip_ofMerged (wellFormed_mergeAll_singleton hc), hskip,
    hskip]
  simp only [← mem_reachesAt, exists_reachesAt]

theorem mem_scopeSkip_relocated (hc : c.WellFormed) (names : Place) {pattern linter : String} :
    linter ∈ scopeSkip (relocated names c).scopes pattern ↔
      ∃ reach : Reach, inside names reach.pattern = pattern ∧ linter ∈ c.skipIn reach := by
  have hnone : scopeSkip (ResolvedConfig.ofMerged {} []).scopes pattern = [] := rfl
  have hnil : scopeSkip [] pattern = [] := rfl
  rw [relocated, mem_scopeSkip_ofMerged_below _ (sound_relocated hc names), hnone,
    mem_scopeSkip_bringIn hc, hnil]
  simp only [mem_reachesBehind, List.not_mem_nil, or_false]

/-- The skipped linters are always the same. -/
theorem skips_relocated (hc : c.WellFormed) (names : Place) (path linter : String) :
    ((relocated names c).scopeFor (pathInside names path)).skips linter =
      ((atRoot c).scopeFor path).skips linter := by
  rw [Bool.eq_iff_iff, ResolvedConfig.skips_scopeFor_iff (wellFormed_relocated hc names).distinct,
    ResolvedConfig.skips_scopeFor_iff (wellFormed_atRoot hc).distinct]
  simp only [mem_scopeSkip_atRoot hc, mem_scopeSkip_relocated hc]
  constructor
  · rintro ⟨_, hmatch, reach, rfl, hskip⟩
    rw [globMatches_inside] at hmatch
    exact ⟨_, hmatch, reach, rfl, hskip⟩
  · rintro ⟨_, hmatch, reach, rfl, hskip⟩
    refine ⟨_, ?_, reach, rfl, hskip⟩
    rwa [globMatches_inside]

end

/-! ## A file that counts alone -/

section

variable {r : Resolver} {disk : Disk} {project : String} {root names : Place} {c : Configuration}
  {dirs : List Place} {path : String}

/-- The directories that may have a configuration file that counts for a project. -/
def consultedDirectories (disk : Disk) (root : Place) : List Place :=
  root.ancestors ++ (scannedDirectories disk root).map (root ++ ·)

/-- The file of one directory is the only one that counts for a project, and it names no presets. -/
structure Alone (r : Resolver) (disk : Disk) (project : String) (root names : Place)
    (c : Configuration) : Prop where
  project : projectPlace disk project = .ok root
  scan : r.scan = true
  environment : r.environmentPath disk = none
  only : (consultedDirectories disk root).filter (fun dir => (disk.findDeclarative dir).isSome) =
    [root ++ names]
  manifest : ∀ dir ∈ root.ancestors, disk.manifestIn dir manifestFiles = .ok none
  reads : ∃ path, disk.findDeclarative (root ++ names) = some path ∧ disk.readConfig path = .ok c
  plain : c.inherited.getD [] = []

theorem load_of_readConfig (h : disk.readConfig path = .ok c) (hplain : c.inherited.getD [] = [])
    (kind : SourceKind) :
    ∃ layer, r.load disk kind path = .ok layer ∧ layer.config = { c with inherited := none } := by
  obtain ⟨place, hplace, hread⟩ := Disk.exists_readConfigAt h
  have hbudget : unvisited disk ([] ++ [place]) < unvisited disk [] :=
    unvisited_append_lt (Disk.mem_filePlaces_of_readConfigAt hread) (by simp)
  obtain ⟨budget, hbudget⟩ : ∃ budget, unvisited disk [] = budget + 1 :=
    ⟨unvisited disk [] - 1, by omega⟩
  unfold load loadLayer
  rw [hbudget]
  unfold loadWithin
  rw [hplace]
  dsimp only
  rw [if_neg (by simp), hread]
  dsimp only
  unfold expandWith
  rw [hplain]
  exact ⟨_, rfl, rfl⟩

theorem walkUp_of_none (h : ∀ dir ∈ dirs, disk.findDeclarative dir = none) (g : Gathered) :
    r.walkUp disk dirs g = .ok (g, none) := by
  induction dirs with
  | nil => rw [walkUp_nil]
  | cons dir above ih =>
    obtain ⟨hdir, habove⟩ := List.forall_mem_cons.mp h
    rw [walkUp_cons, hdir]
    exact ih habove

theorem scanBelow_of_none (h : ∀ dir ∈ dirs, disk.findDeclarative (root ++ dir) = none)
    (seen : List String) (b : Below) : r.scanBelow disk root seen dirs b = .ok b := by
  induction dirs with
  | nil => rw [scanBelow_nil]
  | cons dir rest ih =>
    obtain ⟨hdir, hrest⟩ := List.forall_mem_cons.mp h
    rw [scanBelow_cons, hdir]
    exact ih hrest

theorem findManifest_of_none (h : ∀ dir ∈ dirs, disk.manifestIn dir manifestFiles = .ok none)
    (boundary : Option Place) : disk.findManifest boundary dirs = .ok none := by
  induction dirs with
  | nil => rw [findManifest_nil]
  | cons dir above ih =>
    obtain ⟨hdir, habove⟩ := List.forall_mem_cons.mp h
    rw [findManifest_cons, hdir]
    dsimp only
    split
    · rfl
    · exact ih habove

theorem scanBelow_of_only {layer : Layer} {seen : List String}
    (h : dirs.filter (fun dir => (disk.findDeclarative (root ++ dir)).isSome) = [names])
    (hpath : disk.findDeclarative (root ++ names) = some path) (hnew : path ∉ seen)
    (hlayer : r.load disk .declarativeFile path = .ok layer) (b : Below) :
    r.scanBelow disk root seen dirs b = .ok (addDirectory names layer b) := by
  induction dirs with
  | nil => cases h
  | cons dir rest ih =>
    rw [scanBelow_cons]
    cases hdir : disk.findDeclarative (root ++ dir) with
    | none =>
      rw [List.filter_cons_of_neg (by simp [hdir])] at h
      exact ih h
    | some found =>
      rw [List.filter_cons_of_pos (by simp [hdir])] at h
      obtain ⟨rfl, hrest⟩ := List.cons.inj h
      obtain rfl : found = path := Option.some.inj (hdir.symm.trans hpath)
      dsimp only
      rw [if_neg (by simpa using hnew), hlayer]
      refine scanBelow_of_none (fun dir' hdir' => ?_) _ _
      simpa using List.filter_eq_nil_iff.mp hrest dir' hdir'

/-- Without a named file and without a manifest, what the walk finds is all that is gathered. -/
theorem gather_of_walkUp {g : Gathered} {boundary : Option Place}
    (henvironment : r.environmentPath disk = none)
    (hmanifest : ∀ dir ∈ root.ancestors, disk.manifestIn dir manifestFiles = .ok none)
    (hwalk : r.walkUp disk root.ancestors {} = .ok (g, boundary)) :
    r.gather disk root none = .ok (addModule disk root g) := by
  have hnamed : r.addEnvironment disk {} = .ok {} := by
    rw [addEnvironment, henvironment]
  have hfield : addManifest r disk boundary root.ancestors g = .ok g := by
    rw [addManifest, findManifest_of_none hmanifest]
    rfl
  show (r.addExplicit disk none {} >>= fun g => r.addEnvironment disk g >>= fun g =>
    r.walkUp disk root.ancestors g >>= fun found =>
      r.addManifest disk found.2 root.ancestors found.1 >>= fun g =>
        .ok (addModule disk root g)) = _
  rw [show r.addExplicit disk none {} = .ok {} from rfl]
  show (r.addEnvironment disk {} >>= _) = _
  rw [hnamed]
  show (r.walkUp disk root.ancestors {} >>= _) = _
  rw [hwalk]
  show (r.addManifest disk boundary root.ancestors g >>= _) = _
  rw [hfield]
  rfl

theorem config_joined_addModule (g : Gathered) (b : Below) :
    (Loaded.joined (addModule disk root g) b).config = (Loaded.joined g b).config := by
  rw [Loaded.joined, Loaded.joined, layers_addModule]

theorem atRoot_withoutPresets (h : c.inherited.getD [] = []) :
    atRoot { c with inherited := none } = atRoot c := by
  cases hinherited : c.inherited with
  | none => rw [← hinherited]
  | some list =>
    rw [hinherited, Option.getD_some] at h
    subst h
    have hnone : (Configuration.mergeAll [c]).inherited.getD [] = [] := by
      show (unionOption none c.inherited).getD [] = []
      rw [hinherited]
      rfl
    rw [atRoot, atRoot, ResolvedConfig.ofMerged, ResolvedConfig.ofMerged, hnone]
    rfl

/-- A project whose own directory has the only file. -/
theorem Alone.resolve_root (h : Alone r disk project root [] c) :
    ∃ loaded, r.resolve disk project none = .ok loaded ∧ loaded.config = atRoot c := by
  obtain ⟨path, hpath, hread⟩ := h.reads
  rw [List.append_nil] at hpath
  obtain ⟨layer, hlayer, hconfig⟩ := load_of_readConfig hread h.plain .declarativeFile
  obtain ⟨above, habove⟩ : ∃ above, root.ancestors = root :: above := by
    refine ⟨(List.range root.length).map fun k => root.take (root.length - (k + 1)), ?_⟩
    rw [Place.ancestors, List.range_succ_eq_map, List.map_cons, List.map_map, Nat.sub_zero,
      List.take_length]
    rfl
  have hothers : (above ++ (scannedDirectories disk root).map (root ++ ·)).filter
      (fun dir => (disk.findDeclarative dir).isSome) = [] := by
    have honly := h.only
    rw [consultedDirectories, habove, List.cons_append, List.append_nil,
      List.filter_cons_of_pos (by simp [hpath])] at honly
    exact (List.cons.inj honly).2
  have hnone : ∀ dir ∈ above ++ (scannedDirectories disk root).map (root ++ ·),
      disk.findDeclarative dir = none := by
    intro dir hdir
    simpa using List.filter_eq_nil_iff.mp hothers dir hdir
  obtain ⟨g, hg, boundary, hwalk⟩ : ∃ g : Gathered, g.layers = [layer.config] ∧
      ∃ boundary, r.walkUp disk root.ancestors {} = .ok (g, boundary) := by
    refine ⟨(({} : Gathered).add layer).see path, rfl, ?_⟩
    rw [habove, walkUp_cons, hpath]
    dsimp only
    rw [if_neg (by simp), hlayer]
    dsimp only
    split
    · exact ⟨_, rfl⟩
    · exact ⟨_, walkUp_of_none (fun dir hdir => hnone dir (List.mem_append_left _ hdir)) _⟩
  refine ⟨_, resolve_eq_ok_iff.mpr ⟨root, h.project, _,
    gather_of_walkUp h.environment h.manifest hwalk, {}, ?_, rfl⟩, ?_⟩
  · rw [below, if_pos h.scan]
    refine scanBelow_of_none (fun dir hdir => hnone _ (List.mem_append_right _ ?_)) _ _
    exact List.mem_map_of_mem hdir
  · rw [config_joined_addModule, Loaded.joined, hg, hconfig]
    exact atRoot_withoutPresets h.plain

/-- A project that has the only file in a directory below. -/
theorem Alone.resolve_below (h : Alone r disk project root names c) (hnames : names ≠ []) :
    ∃ loaded, r.resolve disk project none = .ok loaded ∧ loaded.config = relocated names c := by
  obtain ⟨path, hpath, hread⟩ := h.reads
  obtain ⟨layer, hlayer, hconfig⟩ := load_of_readConfig hread h.plain .declarativeFile
  have honly := h.only
  rw [consultedDirectories, List.filter_append] at honly
  have habove : root.ancestors.filter (fun dir => (disk.findDeclarative dir).isSome) = [] := by
    refine List.filter_eq_nil_iff.mpr fun dir hdir hsome => ?_
    have hmem : dir ∈ [root ++ names] := by
      rw [← honly]
      exact List.mem_append_left _ (List.mem_filter.mpr ⟨hdir, hsome⟩)
    have hlength := (Place.mem_ancestors.mp hdir).length_le
    rw [List.mem_singleton.mp hmem, List.length_append] at hlength
    have hpos := List.length_pos_iff.mpr hnames
    omega
  rw [habove, List.nil_append, List.filter_map, Function.comp_def] at honly
  have hscanned : (scannedDirectories disk root).filter
      (fun dir => (disk.findDeclarative (root ++ dir)).isSome) = [names] := by
    obtain ⟨dir, rest, hdirs, hdir, hrest⟩ := List.map_eq_cons_iff.mp honly
    obtain rfl := List.map_eq_nil_iff.mp hrest
    rw [← List.append_cancel_left hdir]
    exact hdirs
  have hwalk : r.walkUp disk root.ancestors {} = .ok ({}, none) :=
    walkUp_of_none (fun dir hdir => by simpa using List.filter_eq_nil_iff.mp habove dir hdir) _
  refine ⟨_, resolve_eq_ok_iff.mpr ⟨root, h.project, _,
    gather_of_walkUp h.environment h.manifest hwalk, addDirectory names layer {}, ?_, rfl⟩, ?_⟩
  · rw [below, if_pos h.scan]
    refine scanBelow_of_only hscanned hpath ?_ hlayer {}
    rw [seen_addModule]
    exact List.not_mem_nil
  · have hsame : bringIn names { c with inherited := none } [] = bringIn names c [] := rfl
    rw [config_joined_addModule, Loaded.joined, scopes_addDirectory, hconfig, hsame]
    rfl

/-- A file means the same in a directory of a project as it means at the root of its own one, except
where two places that decide change their order and say different things. -/
theorem relocated_agrees_iff {r' : Resolver} {disk' : Disk} {project' : String} {root' : Place}
    (h : Alone r disk project root names c) (hnames : names ≠ [])
    (hown : Alone r' disk' project' root' [] c) :
    ∃ loaded own, r.resolve disk project none = .ok loaded ∧
      r'.resolve disk' project' none = .ok own ∧
      ∀ path, (∀ linter, (loaded.config.scopeFor (pathInside names path)).skips linter =
          (own.config.scopeFor path).skips linter) ∧
        ∀ key, (loaded.config.scopeFor (pathInside names path)).severityOf key =
            (own.config.scopeFor path).severityOf key ↔
          ∀ x y, Swaps names c x y → x.Decides atRoot c path key →
            y.Decides (relocated names) c (pathInside names path) key →
            c.severityIn key x = c.severityIn key y := by
  obtain ⟨loaded, hloaded, hconfig⟩ := h.resolve_below hnames
  obtain ⟨own, hresolved, hconfig'⟩ := hown.resolve_root
  have hc : c.WellFormed := by
    obtain ⟨path, -, hread⟩ := h.reads
    obtain ⟨place, -, hreadAt⟩ := Disk.exists_readConfigAt hread
    exact Disk.wellFormed_of_readConfigAt hreadAt
  refine ⟨loaded, own, hloaded, hresolved, fun path => ⟨fun linter => ?_, fun key => ?_⟩⟩
  · rw [hconfig, hconfig']
    exact skips_relocated hc names path linter
  · rw [hconfig, hconfig']
    exact severityOf_relocated_iff hc names path key

/-- Whether a file can only be alone if it is the one of a directory. -/
def leavesAlone (r : Resolver) (disk : Disk) (project : String) (root names : Place) : Bool :=
  passes (· == root) (projectPlace disk project) && r.scan && (r.environmentPath disk).isNone &&
    (consultedDirectories disk root).filter (fun dir => (disk.findDeclarative dir).isSome) ==
      [root ++ names] &&
    root.ancestors.all fun dir => passes Option.isNone (disk.manifestIn dir manifestFiles)

theorem Alone.of_leavesAlone (h : leavesAlone r disk project root names = true)
    (hpath : disk.findDeclarative (root ++ names) = some path)
    (hread : disk.readConfig path = .ok c) (hplain : c.inherited.getD [] = []) :
    Alone r disk project root names c := by
  simp only [leavesAlone, Bool.and_eq_true, beq_iff_eq, Option.isNone_iff_eq_none,
    List.all_eq_true] at h
  obtain ⟨⟨⟨⟨hproject, hscan⟩, henvironment⟩, honly⟩, hmanifest⟩ := h
  refine ⟨?_, hscan, henvironment, honly, fun dir hdir => ?_, ⟨path, hpath, hread⟩, hplain⟩
  · obtain ⟨place, hplace, heq⟩ := exists_of_passes hproject
    rw [hplace, eq_of_beq heq]
  · obtain ⟨found, hfound, hnone⟩ := exists_of_passes (hmanifest dir hdir)
    rw [hfound, Option.isNone_iff_eq_none.mp hnone]

end

/-- A directory with a configuration file. -/
def onlyFile (dir text : String) : Disk where
  tree := .directory [(dir, .directory [("viola.json", .file (some text))])]
  cwd := []

/-- A file with an empty scope of every file behind another scope. -/
def movedText : String :=
  "\x7b'severity': \x7b'naming': 'error'\x7d, 'scopes': \x7b" ++
    "'*.ts': \x7b'severity': \x7b'naming': 'off'\x7d\x7d, '**': \x7b\x7d\x7d\x7d"

/-- In a directory the empty scope of every file goes where the own settings are, and these no
longer go before the other scope. -/
theorem relocated_differs :
    ∃ c loaded own, Alone plainResolver (onlyFile "sub" movedText) "/" [] ["sub"] c ∧
      Alone plainResolver (onlyFile "sub" movedText) "/sub" ["sub"] [] c ∧
      plainResolver.resolve (onlyFile "sub" movedText) "/" none = .ok loaded ∧
      plainResolver.resolve (onlyFile "sub" movedText) "/sub" none = .ok own ∧
      (loaded.config.scopeFor (pathInside ["sub"] "a.ts")).severityOf "naming" = some .off ∧
      (own.config.scopeFor "a.ts").severityOf "naming" = some .error := by
  have hread : passes (fun c => c.inherited.getD [] == [] &&
      ((relocated ["sub"] c).scopeFor (pathInside ["sub"] "a.ts")).severityOf "naming" ==
        some .off && ((atRoot c).scopeFor "a.ts").severityOf "naming" == some .error)
      ((onlyFile "sub" movedText).readConfig "/sub/viola.json") = true := by decide +kernel
  obtain ⟨c, hc, hchecks⟩ := exists_of_passes hread
  simp only [Bool.and_eq_true, beq_iff_eq] at hchecks
  obtain ⟨⟨hplain, hoff⟩, herror⟩ := hchecks
  have hbelow : Alone plainResolver (onlyFile "sub" movedText) "/" [] ["sub"] c :=
    .of_leavesAlone (by decide +kernel) (by decide +kernel) hc hplain
  have hroot : Alone plainResolver (onlyFile "sub" movedText) "/sub" ["sub"] [] c :=
    .of_leavesAlone (by decide +kernel) (by decide +kernel) hc hplain
  obtain ⟨loaded, hloaded, hconfig⟩ := hbelow.resolve_below (by simp)
  obtain ⟨own, hown, hconfig'⟩ := hroot.resolve_root
  refine ⟨c, loaded, own, hbelow, hroot, hloaded, hown, ?_, ?_⟩
  · rw [hconfig, hoff]
  · rw [hconfig', herror]

/-- A file without a scope of every file. -/
def plainText : String :=
  "\x7b'severity': \x7b'naming': 'error'\x7d, 'scopes': \x7b" ++
    "'*.ts': \x7b'severity': \x7b'naming': 'off'\x7d\x7d\x7d\x7d"

/-- Without a scope of every file, nothing changes its order in a directory without a brace. -/
theorem relocated_agrees_in_bracketed_directory :
    ∃ c loaded own, Alone plainResolver (onlyFile "[a]" plainText) "/" [] ["[a]"] c ∧
      Alone plainResolver (onlyFile "[a]" plainText) "/[a]" ["[a]"] [] c ∧
      plainResolver.resolve (onlyFile "[a]" plainText) "/" none = .ok loaded ∧
      plainResolver.resolve (onlyFile "[a]" plainText) "/[a]" none = .ok own ∧
      c.severityIn "naming" (.within "*.ts") = some .off ∧
      ∀ path key, (loaded.config.scopeFor (pathInside ["[a]"] path)).severityOf key =
        (own.config.scopeFor path).severityOf key := by
  have hread : passes (fun c => c.inherited.getD [] == [] && c.patterns == ["*.ts"] &&
      c.severityIn "naming" (.within "*.ts") == some .off)
      ((onlyFile "[a]" plainText).readConfig "/[a]/viola.json") = true := by decide +kernel
  obtain ⟨c, hc, hchecks⟩ := exists_of_passes hread
  simp only [Bool.and_eq_true, beq_iff_eq] at hchecks
  obtain ⟨⟨hplain, hpatterns⟩, hoff⟩ := hchecks
  have hbelow : Alone plainResolver (onlyFile "[a]" plainText) "/" [] ["[a]"] c :=
    .of_leavesAlone (by decide +kernel) (by decide +kernel) hc hplain
  have hroot : Alone plainResolver (onlyFile "[a]" plainText) "/[a]" ["[a]"] [] c :=
    .of_leavesAlone (by decide +kernel) (by decide +kernel) hc hplain
  obtain ⟨loaded, own, hloaded, hown, hagree⟩ := relocated_agrees_iff hbelow (by simp) hroot
  refine ⟨c, loaded, own, hbelow, hroot, hloaded, hown, hoff, fun path key => ?_⟩
  refine ((hagree path).2 key).mpr fun x y hswaps _ _ => ?_
  exfalso
  cases hswaps with
  | brace hbrace =>
    revert hbrace
    rw [Braced]
    decide +kernel
  | moved _ _ _ hlisted =>
    have hmem := hlisted.subset (List.mem_cons_of_mem _ (List.mem_singleton_self globalScope))
    rw [hpatterns] at hmem
    revert hmem
    decide

end Resolver

end LintFront
