import LintFront.Proofs.Rerooted

/-!
# The project and the directories below it

What the directories below a project say comes in after what the project says. Where both have a
scope for a pattern, the one from below completes itself from that of the project, and the pattern
goes to its place. So a key that only the project sets there goes along, and may come behind a
scope from below that is as specific.

* `Part`: what a resolved configuration is made of, `parts`: the order of these parts.
* `ProjectDecides`: a severity follows what the project says at one place.
* `Overtakes`: a severity of the project goes along to the place of a scope from below.
* `project_decides_nothing_iff`: when the project decides nothing beside a scope from below that is
  as specific, and what becomes of a pattern that both have.
-/

namespace LintFront

open scoped List

/-! ## Settings of merged overrides -/

theorem Value.at?_of_trail {path : List String} {v x : Value}
    (h : trail path v = .found path.length x) : at? path v = some x := by
  induction path generalizing v with
  | nil =>
    cases h
    rfl
  | cons name path ih =>
    cases hvm : v.members? with
    | none =>
      rw [trail_of_not_object hvm] at h
      cases h
    | some members =>
      rw [trail_cons_of_members hvm] at h
      cases hfind : Table.find? members name with
      | none =>
        rw [hfind] at h
        cases h
      | some w =>
        have htrail : trail path w = .found path.length x := by
          rw [hfind, Trail.inside] at h
          cases hw : trail path w with
          | missing d => rw [hw] at h; cases h
          | found e y => rw [hw] at h; cases h; rfl
        rw [at?, member?_eq hvm, hfind, Option.bind_some, ih htrail]

namespace ScopeOverride

variable {s lower : ScopeOverride} {setting : Setting} {x : Value}

theorem leaf?_of_trail (h : s.trail setting = .found setting.depth x) (hx : x.members? = none) :
    s.leaf? setting = some x := by
  cases setting with
  | severity key =>
    rw [trail] at h
    rw [leaf?]
    cases hkey : s.severityOf key with
    | none => rw [hkey] at h; cases h
    | some severity => rw [hkey] at h; cases h; rfl
  | option linter names =>
    exact Option.filter_eq_some_iff.mpr ⟨Value.at?_of_trail h, by rw [hx]; rfl⟩

/-- What an override sets stays when a lower one is brought in. -/
theorem leaf?_merge_left (hlower : lower.WellFormed) (h : s.leaf? setting = some x) :
    (s.merge lower).leaf? setting = some x := by
  obtain ⟨htrail, hx⟩ := trail_of_leaf? h
  apply leaf?_of_trail _ hx
  rw [trail_merge s hlower, htrail, Trail.found_merge hx]

/-- What a lower override sets comes in where the upper one has nothing, nor anything on the way. -/
theorem leaf?_merge_right (hlower : lower.WellFormed) (hopen : (s.trail setting).value? = none)
    (h : lower.leaf? setting = some x) : (s.merge lower).leaf? setting = some x := by
  obtain ⟨htrail, hx⟩ := trail_of_leaf? h
  apply leaf?_of_trail _ hx
  rw [trail_merge s hlower, htrail, Trail.merge_of_admits (trail_admits hopen)]

end ScopeOverride

namespace Resolver

/-! ## Parts -/

/-- What a resolved configuration is made of: a place of the project, or the scope that the
directories below have for a pattern. -/
inductive Part
  | project (reach : Reach)
  | below (pattern : String)
  deriving DecidableEq

namespace Part

def pattern : Part → String
  | project reach => reach.pattern
  | below pattern => pattern

/-- At one pattern what comes from below goes before what the project says. -/
def Above : Part → Part → Prop
  | below _, project _ => True
  | project reach, project reach' => reach.Over reach'
  | _, below _ => False

/-- The severity that a part sets for a key. -/
def severity (merged : Configuration) (scopes : Table ScopeOverride) (key : String) :
    Part → Option Severity
  | project reach => merged.severityIn key reach
  | below pattern => scopeSeverity scopes key pattern

theorem not_above_swap {i j : Part} (h : i.Above j) : ¬ j.Above i := by
  cases i with
  | below => cases j <;> exact id
  | project reach =>
    cases j with
    | below => cases h
    | project reach' => exact fun h' => h.1 h'.2

end Part

/-- The parts of a project and of the directories below it, in their order. -/
def parts (merged : Configuration) (scopes : Table ScopeOverride) : Contributions Part where
  pattern := Part.pattern
  Above := Part.Above
  listed := Table.names (ResolvedConfig.ofMerged merged scopes).scopes

/-- The parts that stand at a pattern, in their order. -/
def partsAt (pattern : String) : List Part :=
  .below pattern :: (reachesAt pattern).map .project

/-- The severity of a key for a file is what the project says at one place, whatever that is. -/
def ProjectDecides (merged : Configuration) (scopes : Table ScopeOverride) (path key : String)
    (reach : Reach) : Prop :=
  (merged.severityIn key reach).isSome ∧ ∀ s,
    ((ResolvedConfig.ofMerged (merged.withSeverity key s reach) scopes).scopeFor path).severityOf
      key = some s

/-- The scope of a pattern from below sets a key for a file. -/
def SetBelow (scopes : Table ScopeOverride) (path key pattern : String) : Prop :=
  (scopeSeverity scopes key pattern).isSome ∧
    globMatches pattern (ResolvedConfig.slashed path) = true

/-- The project sets a key for a file at a pattern that the directories below have too, as specific
as another one of theirs and listed after it. They do not set the key there. -/
structure Overtakes (merged : Configuration) (scopes : Table ScopeOverride)
    (path key pattern other : String) : Prop where
  sets : ∃ reach : Reach, reach.pattern = other ∧ (merged.severityIn key reach).isSome
  globMatches : globMatches other (ResolvedConfig.slashed path) = true
  unset : scopeSeverity scopes key other = none
  specific : specificity other = specificity pattern
  later : [pattern, other] <+ Table.names scopes

section

variable {merged : Configuration} {scopes : Table ScopeOverride} {path key pattern : String}
variable {reach : Reach}

theorem wellFormed_ofMerged (hmerged : merged.WellFormed) (h : Sound scopes) :
    (ResolvedConfig.ofMerged merged scopes).WellFormed := .ofMerged hmerged h.distinct h.scope

theorem lawful_parts (hmerged : merged.WellFormed) (h : Sound scopes) :
    (parts merged scopes).Lawful :=
  ⟨(wellFormed_ofMerged hmerged h).distinct, fun _ _ => Part.not_above_swap⟩

theorem mem_partsAt {i : Part} : i ∈ partsAt pattern ↔ i.pattern = pattern := by
  cases i with
  | below p => simp [partsAt, Part.pattern]
  | project reach => simp [partsAt, Part.pattern, mem_reachesAt]

theorem renders_parts (hmerged : merged.WellFormed) (h : Sound scopes) (key : String) :
    (parts merged scopes).Renders (Part.severity merged scopes key) key
      (ResolvedConfig.ofMerged merged scopes).scopes := by
  refine .of_stack (List.Sublist.refl _) partsAt (fun pattern => ?_)
    (fun i pattern hi => mem_partsAt.mp hi) (fun i _ => mem_partsAt.mpr rfl) fun pattern => ?_
  · refine List.pairwise_cons.mpr ⟨fun i hi => ?_, List.pairwise_map.mpr (pairwise_reachesAt _)⟩
    obtain ⟨reach, -, rfl⟩ := List.mem_map.mp hi
    trivial
  · rw [scopeSeverity_ofMerged_below hmerged h, ResolvedConfig.scopeSeverity_ofMerged hmerged,
      ← findSome?_reachesAt, partsAt, List.findSome?_cons, List.findSome?_map]
    rw [Part.severity]
    cases scopeSeverity scopes key pattern <;> rfl

theorem severity_withSeverity (merged : Configuration) (scopes : Table ScopeOverride) (key : String)
    (reach : Reach) (s : Severity) (i : Part) :
    Part.severity (merged.withSeverity key s reach) scopes key i =
      if i = .project reach then some s else Part.severity merged scopes key i := by
  cases i with
  | below pattern => simp [Part.severity]
  | project reach' =>
    rw [Part.severity, Configuration.severityIn_withSeverity]
    by_cases hreach : reach' = reach <;> simp [hreach, Part.severity]

theorem parts_withSeverity (hmerged : merged.WellFormed) (h : Sound scopes)
    (hset : (merged.severityIn key reach).isSome) (s : Severity) :
    parts (merged.withSeverity key s reach) scopes = parts merged scopes := by
  have hnames : Table.names (ResolvedConfig.ofMerged (merged.withSeverity key s reach)
      scopes).scopes = Table.names (ResolvedConfig.ofMerged merged scopes).scopes := by
    rw [names_ofMerged_below _ h, names_ofMerged_below _ h,
      ResolvedConfig.names_ofMerged_withSeverity hmerged hset]
  rw [parts, parts, hnames]

/-- The project decides at a place if and only if that leads. -/
theorem projectDecides_iff_leads (hmerged : merged.WellFormed) (h : Sound scopes)
    (path key : String) (reach : Reach) :
    ProjectDecides merged scopes path key reach ↔
      (parts merged scopes).Leads (Part.severity merged scopes key) path (.project reach) := by
  refine Contributions.decides_iff_leads (i := .project reach) (lawful_parts hmerged h)
    (fun _ s => severity_withSeverity merged scopes key reach s)
    (fun s => wellFormed_ofMerged (hmerged.withSeverity key s reach) h) (fun hset s => ?_) path
  rw [← parts_withSeverity hmerged h hset s]
  exact renders_parts (hmerged.withSeverity key s reach) h key

/-! ## What goes before a scope from below -/

/-- Patterns from below stand behind those of the project, in their own order. -/
theorem sublist_below (merged : Configuration) (h : Sound scopes) {p q : String}
    (hp : p ∈ Table.names scopes)
    (hpq : [p, q] <+ Table.names (ResolvedConfig.ofMerged merged scopes).scopes) :
    [p, q] <+ Table.names scopes := by
  rw [names_ofMerged_below merged h] at hpq
  apply pair_sublist_of_append hpq
  intro hmem
  simpa [hp] using (List.mem_filter.mp hmem).2

theorem SetBelow.speaks (merged : Configuration) (h : SetBelow scopes path key pattern) :
    (parts merged scopes).Speaks (Part.severity merged scopes key) path (.below pattern) := h

theorem SetBelow.mem_names (h : SetBelow scopes path key pattern) :
    pattern ∈ Table.names scopes := by
  obtain ⟨o, ho, -⟩ := exists_of_isSome_bind h.1
  exact Table.mem_names_of_mem (Table.mem_of_find? ho)

/-- Where the project leads, no scope from below sets the key at the same pattern. -/
theorem unset_of_leads (hmerged : merged.WellFormed) (h : Sound scopes)
    (hleads : (parts merged scopes).Leads (Part.severity merged scopes key) path
      (.project reach)) : scopeSeverity scopes key reach.pattern = none := by
  apply Option.not_isSome_iff_eq_none.mp
  intro hsome
  have hset : SetBelow scopes path key reach.pattern := ⟨hsome, hleads.1.2⟩
  rcases hleads.2 _ (hset.speaks merged) with heq | hrank | ⟨-, habove⟩
  · cases heq
  · exact hrank.ne (lawful_parts hmerged h).nodup rfl
  · exact habove

/-- Where the project leads beside a scope from below that is as specific, it has overtaken it. -/
theorem overtakes_of_leads (hmerged : merged.WellFormed) (h : Sound scopes)
    (hset : SetBelow scopes path key pattern)
    (hspecific : specificity reach.pattern ≤ specificity pattern)
    (hleads : (parts merged scopes).Leads (Part.severity merged scopes key) path
      (.project reach)) : Overtakes merged scopes path key pattern reach.pattern := by
  rcases hleads.2 _ (hset.speaks merged) with heq | hrank | ⟨-, habove⟩
  · cases heq
  · rcases hrank with hlt | ⟨heq, hlater⟩
    · exact absurd hlt (Nat.not_lt_of_le hspecific)
    · exact ⟨⟨reach, rfl, hleads.1.1⟩, hleads.1.2, unset_of_leads hmerged h hleads, heq,
        sublist_below merged h hset.mem_names hlater⟩
  · exact absurd habove id

/-- A scope from below that leads goes before each place of the project that has overtaken one. -/
theorem outranks_of_leads (h : Sound scopes) {first other : String}
    (hleads : (parts merged scopes).Leads (Part.severity merged scopes key) path (.below first))
    (hover : Overtakes merged scopes path key pattern other) :
    Outranks (Table.names scopes) first other := by
  obtain ⟨reach, rfl, hsome⟩ := hover.sets
  have hspeaks : (parts merged scopes).Speaks (Part.severity merged scopes key) path
      (.project reach) := ⟨hsome, hover.globMatches⟩
  rcases hleads.2 _ hspeaks with heq | hrank | ⟨heq, -⟩
  · cases heq
  · rcases hrank with hlt | ⟨heq, hlater⟩
    · exact Or.inl hlt
    · refine Or.inr ⟨heq, sublist_below merged h ?_ hlater⟩
      exact hover.later.subset (by simp)
  · have hset : (scopeSeverity scopes key first).isSome := hleads.1.1
    have hunset := hover.unset
    rw [← show first = reach.pattern from heq] at hunset
    rw [hunset] at hset
    cases hset

/-- The project decides nothing beside a scope from below that is as specific, if and only if each
of its settings that overtakes that scope comes after another scope from below. -/
theorem decides_nothing_beside_iff (hmerged : merged.WellFormed) (h : Sound scopes)
    (hset : SetBelow scopes path key pattern)
    (hspecific : ∀ reach : Reach, (merged.severityIn key reach).isSome →
      globMatches reach.pattern (ResolvedConfig.slashed path) = true →
        specificity reach.pattern ≤ specificity pattern) :
    (∀ reach, ¬ ProjectDecides merged scopes path key reach) ↔
      ∀ other, Overtakes merged scopes path key pattern other →
        ∃ first, SetBelow scopes path key first ∧ Outranks (Table.names scopes) first other := by
  have hlawful := lawful_parts hmerged h
  have hwf := wellFormed_ofMerged hmerged h
  have hrenders := renders_parts hmerged h key
  simp only [projectDecides_iff_leads hmerged h]
  constructor
  · intro hnone other hover
    obtain ⟨s, hs⟩ := Option.isSome_iff_exists.mp
      ((hset.speaks merged).isSome_severity hwf hrenders)
    obtain ⟨leader, hleads, -⟩ := Contributions.exists_leads hwf hrenders hs
    cases leader with
    | project reach => exact absurd hleads (hnone reach)
    | below first => exact ⟨first, hleads.1, outranks_of_leads h hleads hover⟩
  · intro hall reach hleads
    have hover := overtakes_of_leads hmerged h hset (hspecific reach hleads.1.1 hleads.1.2) hleads
    obtain ⟨first, hfirst, hrank⟩ := hall _ hover
    -- The other scope goes before the place of the project, so that this does not lead.
    have hbefore : (parts merged scopes).Before (.below first) (.project reach) := by
      refine Or.inl (hrank.mono ?_)
      rw [parts, names_ofMerged_below merged h]
      exact List.sublist_append_right _ _
    rcases hleads.2 _ (hfirst.speaks merged) with heq | hafter
    · cases heq
    · exact hbefore.asymm hlawful hafter

end

/-! ## Patterns that both have -/

/-- An override that has all of an upper one, and all of a lower one that this leaves open. -/
structure Completes (upper lower s : ScopeOverride) : Prop where
  /-- Severities and options of the upper one stay. -/
  keeps : ∀ setting x, upper.leaf? setting = some x → s.leaf? setting = some x
  /-- Those of the lower one come in where the upper one has nothing, nor anything on the way. -/
  fills : ∀ setting x, (upper.trail setting).value? = none → lower.leaf? setting = some x →
    s.leaf? setting = some x
  skips : ∀ linter, s.skips linter = true ↔ upper.skips linter = true ∨ lower.skips linter = true

theorem completes_merge (upper : ScopeOverride) {lower : ScopeOverride} (h : lower.WellFormed) :
    Completes upper lower (upper.merge lower) where
  keeps _ _ := ScopeOverride.leaf?_merge_left h
  fills _ _ := ScopeOverride.leaf?_merge_right h
  skips linter := by
    simp only [ScopeOverride.skips, List.contains_iff_mem, ScopeOverride.mem_skip_merge]

/-- If a scope from below sets a key for a file, and the project sets it at no pattern that is more
specific, then the project does not decide the key, if and only if each of its settings that
overtakes that scope comes after another scope from below. Where both have a scope for a pattern,
the one from below is completed from that of the project. -/
theorem project_decides_nothing_iff {merged : Configuration} {scopes : Table ScopeOverride}
    (hmerged : merged.WellFormed) (h : Sound scopes) :
    (∀ path key pattern, SetBelow scopes path key pattern →
      (∀ reach : Reach, (merged.severityIn key reach).isSome →
        globMatches reach.pattern (ResolvedConfig.slashed path) = true →
          specificity reach.pattern ≤ specificity pattern) →
      ((∀ reach, ¬ ProjectDecides merged scopes path key reach) ↔
        ∀ other, Overtakes merged scopes path key pattern other →
          ∃ first, SetBelow scopes path key first ∧
            Outranks (Table.names scopes) first other)) ∧
      ∀ pattern upper lower, Table.find? scopes pattern = some upper →
        Table.find? (ResolvedConfig.ofMerged merged []).scopes pattern = some lower →
          ∃ s, Table.find? (ResolvedConfig.ofMerged merged scopes).scopes pattern = some s ∧
            Completes upper lower s := by
  refine ⟨fun path key pattern hset hspecific =>
      decides_nothing_beside_iff hmerged h hset hspecific,
    fun pattern upper lower hupper hlower => ⟨upper.merge lower, ?_, ?_⟩⟩
  · have hfind := ResolvedConfig.find?_insertAllLater (ResolvedConfig.ofMerged merged []).scopes
      h.distinct pattern
    rw [hupper, hlower] at hfind
    exact hfind
  · exact completes_merge upper
      ((ResolvedConfig.wellFormed_ofMerged_nil hmerged).of_find? hlower)

/-- A scope of a directory that sets a key for its files. -/
def setsBelow : String × ScopeOverride := ("src/**", { severity := some [("naming", .warn)] })

/-- A scope from below at a pattern that is as specific, with nothing about the key. -/
def skipsBelow : String × ScopeOverride := ("src/*.ts", { skip := some ["size"] })

theorem specificity_le_of_singleScope {reach : Reach}
    (h : ((singleScope "src/*.ts" "naming" .error).severityIn "naming" reach).isSome) :
    reach.pattern = "src/*.ts" ∧ specificity reach.pattern ≤ specificity "src/**" := by
  cases reach with
  | everywhere => cases h
  | within pattern =>
    obtain ⟨o, ho, -⟩ := exists_of_isSome_bind h
    have hmem := Table.mem_of_find? ho
    simp only [singleScope, Option.getD_some, List.mem_singleton, Prod.mk.injEq] at hmem
    obtain ⟨rfl, -⟩ := hmem
    exact ⟨rfl, by decide +kernel⟩

theorem sound_of_sets_or_skips {scopes : Table ScopeOverride} (hdistinct : scopes.Distinct)
    (h : ∀ entry ∈ scopes, entry = setsBelow ∨ entry = skipsBelow) : Sound scopes := by
  refine ⟨hdistinct, fun pattern o ho => ?_⟩
  rcases h _ (Table.mem_of_find? ho) with heq | heq
  · obtain ⟨-, rfl⟩ := Prod.mk.inj heq
    exact ⟨by simp [Table.Distinct, Table.names], by simp⟩
  · obtain ⟨-, rfl⟩ := Prod.mk.inj heq
    exact ⟨by simp, by simp⟩

theorem project_decides_nothing_beside_src :
    (singleScope "src/*.ts" "naming" .error).WellFormed ∧ Sound [skipsBelow, setsBelow] ∧
      ∀ reach, ¬ ProjectDecides (singleScope "src/*.ts" "naming" .error) [skipsBelow, setsBelow]
        "src/a.ts" "naming" reach := by
  have hmerged := wellFormed_singleScope "src/*.ts" "naming" .error
  have hbelow : Sound [skipsBelow, setsBelow] := sound_of_sets_or_skips (by decide) (by simp)
  have hset : SetBelow [skipsBelow, setsBelow] "src/a.ts" "naming" "src/**" := by
    exact ⟨by decide, by decide +kernel⟩
  refine ⟨hmerged, hbelow, ((project_decides_nothing_iff hmerged hbelow).1 _ _ _ hset
    fun reach hreach _ => (specificity_le_of_singleScope hreach).2).mpr fun other hover => ?_⟩
  -- The pattern of the project comes before the one that sets the key.
  obtain ⟨reach, rfl, hreach⟩ := hover.sets
  have hlater := hover.later
  rw [(specificity_le_of_singleScope hreach).1] at hlater
  exact absurd hlater (by decide)

/-- In the other order the severity of the project goes along to the end, and decides. -/
theorem project_overtakes_src :
    (singleScope "src/*.ts" "naming" .error).WellFormed ∧ Sound [setsBelow, skipsBelow] ∧
      SetBelow [setsBelow, skipsBelow] "src/a.ts" "naming" "src/**" ∧
      (∀ reach : Reach,
        ((singleScope "src/*.ts" "naming" .error).severityIn "naming" reach).isSome →
          specificity reach.pattern ≤ specificity "src/**") ∧
      ProjectDecides (singleScope "src/*.ts" "naming" .error) [setsBelow, skipsBelow]
        "src/a.ts" "naming" (.within "src/*.ts") ∧
      ((ResolvedConfig.ofMerged (singleScope "src/*.ts" "naming" .error)
        [setsBelow, skipsBelow]).scopeFor "src/a.ts").severityOf "naming" = some .error := by
  refine ⟨wellFormed_singleScope _ _ _, sound_of_sets_or_skips (by decide) (by simp),
    ⟨by decide, by decide +kernel⟩,
    fun reach hreach => (specificity_le_of_singleScope hreach).2, ⟨by decide, fun s => ?_⟩,
    by decide +kernel⟩
  cases s <;> decide +kernel

end Resolver

end LintFront
