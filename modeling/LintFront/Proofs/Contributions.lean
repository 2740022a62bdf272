import LintFront.Proofs.Effective
import LintFront.Proofs.Precedence
import LintFront.Proofs.Subtree

/-!
# Contributions to the scopes of a configuration

The scopes of a resolved configuration are put together from what several files say at several
places. Such contributions are in an order: by the rank of their patterns, and at one pattern by a
rule of its own. If the scopes say at each pattern what the first contribution there says, then a
severity is decided by the first contribution of all.

* `scopeSeverity`, `scopeSkip`: what the scope of a pattern says.
* `Contributions`: patterns of contributions, and their order.
* `Contributions.Renders`: scopes that say what contributions say.
* `Contributions.exists_leads`: the severity of a file is what a leading contribution says.
* `Contributions.decides_iff_leads`: a severity follows a contribution if and only if it leads.
* `Contributions.agree_iff`: two configurations made of the same contributions.
-/

namespace LintFront

open scoped List

/-! ## The scope of a pattern -/

/-- The severity of a key that the scope of a pattern sets. -/
def scopeSeverity (scopes : Table ScopeOverride) (key pattern : String) : Option Severity :=
  (Table.find? scopes pattern).bind (·.severityOf key)

/-- The linters that the scope of a pattern skips. -/
def scopeSkip (scopes : Table ScopeOverride) (pattern : String) : List String :=
  ((Table.find? scopes pattern).bind ScopeOverride.skip).getD []

/-- The linters that a configuration skips at one place. -/
def Configuration.skipIn (c : Configuration) : Reach → List String
  | .everywhere => c.skip.getD []
  | .within pattern => scopeSkip (c.scopes.getD []) pattern

section

variable {upper lower scopes : Table ScopeOverride} {pattern : String}

/-- A scope that is made of two says what the upper one says, and else what the lower one says. -/
theorem scopeSeverity_merge
    (h : Table.find? scopes pattern =
      (Table.find? upper pattern).merge ScopeOverride.merge (Table.find? lower pattern))
    (hlower : ∀ o, Table.find? lower pattern = some o → o.WellFormed) (key : String) :
    scopeSeverity scopes key pattern =
      (scopeSeverity upper key pattern).or (scopeSeverity lower key pattern) := by
  unfold scopeSeverity
  rw [h]
  cases hu : Table.find? upper pattern with
  | none => simp
  | some a =>
    cases hl : Table.find? lower pattern with
    | none => simp
    | some b => simp [ScopeOverride.severityOf_merge a (hlower b hl)]

theorem mem_scopeSkip_merge
    (h : Table.find? scopes pattern =
      (Table.find? upper pattern).merge ScopeOverride.merge (Table.find? lower pattern))
    {linter : String} :
    linter ∈ scopeSkip scopes pattern ↔
      linter ∈ scopeSkip upper pattern ∨ linter ∈ scopeSkip lower pattern := by
  unfold scopeSkip
  rw [h]
  cases Table.find? upper pattern with
  | none => simp
  | some a =>
    cases Table.find? lower pattern with
    | none => simp
    | some b => exact ScopeOverride.mem_skip_merge

end

namespace ResolvedConfig

theorem scopeSeverity_globalScopes (c : Configuration) (key pattern : String) :
    scopeSeverity (globalScopes c) key pattern =
      if pattern = globalScope then c.severityIn key .everywhere else none :=
  find?_globalScopes c key pattern

theorem mem_scopeSkip_globalScopes {c : Configuration} {pattern linter : String} :
    linter ∈ scopeSkip (globalScopes c) pattern ↔
      pattern = globalScope ∧ linter ∈ c.skip.getD [] := by
  unfold scopeSkip globalScopes
  dsimp only
  split
  · rename_i hempty
    have hnone : c.skip.getD [] = [] := by
      simp only [ScopeOverride.isEmpty, globalOverride, Bool.and_eq_true, List.isEmpty_iff]
        at hempty
      exact hempty.1.1
    simp [hnone]
  · rw [Table.find?_cons]
    by_cases hpattern : pattern = globalScope
    · simp [hpattern, globalOverride]
    · simp [hpattern]

theorem mem_skipIn_merge {c p : Configuration} (hp : p.WellFormed) (reach : Reach)
    {linter : String} :
    linter ∈ (c.merge p).skipIn reach ↔ linter ∈ c.skipIn reach ∨ linter ∈ p.skipIn reach := by
  cases reach with
  | everywhere =>
    show linter ∈ (unionOption c.skip p.skip).getD [] ↔ _
    cases hskip : p.skip <;> simp [unionOption, Configuration.skipIn, hskip]
  | within pattern =>
    exact mem_scopeSkip_merge (Table.find?_mergeTables _ c.scopes hp.scopes pattern)

theorem mem_skip_foldl_merge {s : ScopeOverride} {lower : List ScopeOverride} {linter : String} :
    linter ∈ (lower.foldl ScopeOverride.merge s).skip.getD [] ↔
      linter ∈ s.skip.getD [] ∨ ∃ o ∈ lower, linter ∈ o.skip.getD [] := by
  induction lower generalizing s with
  | nil => simp
  | cons head rest ih =>
    rw [List.foldl_cons, ih, ScopeOverride.mem_skip_merge, or_assoc]
    simp only [List.mem_cons, exists_eq_or_imp]

/-- A linter leaves a file alone if a scope that matches the file skips it. -/
theorem skips_scopeFor_iff {c : ResolvedConfig} (hdistinct : Table.Distinct c.scopes)
    {path linter : String} :
    (c.scopeFor path).skips linter = true ↔
      ∃ pattern, globMatches pattern (slashed path) = true ∧
        linter ∈ scopeSkip c.scopes pattern := by
  rw [ScopeOverride.skips, List.contains_iff_mem, scopeFor, mem_skip_foldl_merge]
  constructor
  · rintro (hempty | ⟨o, ho, hlinter⟩)
    · cases hempty
    · obtain ⟨scope, hscope, rfl⟩ := List.mem_map.mp ho
      obtain ⟨hmem, hmatch⟩ := mem_matching.mp hscope
      refine ⟨scope.1, hmatch, ?_⟩
      rw [scopeSkip, hdistinct.find?_of_mem hmem]
      exact hlinter
  · rintro ⟨pattern, hmatch, hlinter⟩
    unfold scopeSkip at hlinter
    cases hfind : Table.find? c.scopes pattern with
    | none =>
      rw [hfind] at hlinter
      cases hlinter
    | some o =>
      rw [hfind] at hlinter
      have hmem : (pattern, o) ∈ c.matching path :=
        mem_matching.mpr ⟨Table.mem_of_find? hfind, hmatch⟩
      exact Or.inr ⟨o, List.mem_map.mpr ⟨_, hmem, rfl⟩, hlinter⟩

end ResolvedConfig

/-! ## Resolved scopes -/

namespace ResolvedConfig

theorem distinct_insertAllLater {scopes later : Table ScopeOverride} (hscopes : scopes.Distinct)
    (hlater : later.Distinct) : Table.Distinct (insertAllLater scopes later) := by
  unfold Table.Distinct
  rw [names_insertAllLater scopes hlater]
  refine List.nodup_append.mpr ⟨hscopes.filter _, hlater, fun x hx y hy hxy => ?_⟩
  have hnew := (List.mem_filter.mp hx).2
  rw [hxy] at hnew
  simp [hy] at hnew

theorem wellFormed_of_find?_insertAllLater {scopes later : Table ScopeOverride}
    (hlater : later.Distinct) {pattern : String}
    (hs : ∀ o, Table.find? scopes pattern = some o → o.WellFormed)
    (hl : ∀ o, Table.find? later pattern = some o → o.WellFormed) {o : ScopeOverride}
    (ho : Table.find? (insertAllLater scopes later) pattern = some o) : o.WellFormed := by
  rw [find?_insertAllLater scopes hlater] at ho
  rcases Option.merge_eq_some_iff.mp ho with ⟨hleft, -⟩ | ⟨-, hright⟩ | ⟨a, b, ha, hb, rfl⟩
  · exact hl o hleft
  · exact hs o hright
  · exact (hl a ha).merge (hs b hb)

/-- What is resolved from a well-formed configuration is well formed. -/
theorem WellFormed.ofMerged {merged : Configuration} (hmerged : merged.WellFormed)
    {below : Table ScopeOverride} (hdistinct : below.Distinct)
    (hbelow : ∀ pattern o, Table.find? below pattern = some o → o.WellFormed) :
    (ofMerged merged below).WellFormed := by
  have hscopes : Table.Distinct (merged.scopes.getD []) := distinct_getD hmerged.scopes
  have hglobal : Table.Distinct (globalScopes merged) := (names_globalScopes merged).nodup (by simp)
  have hall : Table.Distinct (ResolvedConfig.ofMerged merged below).scopes :=
    distinct_insertAllLater (distinct_insertAllLater hglobal hscopes) hdistinct
  refine ⟨hall, fun scope hscope => ?_⟩
  refine wellFormed_of_find?_insertAllLater hdistinct (fun o ho => ?_) (hbelow scope.1)
    (hall.find?_of_mem hscope)
  refine wellFormed_of_find?_insertAllLater hscopes (fun o' ho' => ?_) (fun o' ho' => ?_) ho
  · exact wellFormed_globalScopes hmerged _ (Table.mem_of_find? ho')
  · exact hmerged.of_find? ho'

/-! ## The scopes of one configuration -/

theorem names_globalScopes_eq (c : Configuration) :
    Table.names (globalScopes c) = if (globalOverride c).isEmpty then [] else [globalScope] := by
  unfold globalScopes
  dsimp only
  split
  · rfl
  · rfl

theorem nodup_patterns {c : Configuration} (hc : c.WellFormed) : c.patterns.Nodup :=
  distinct_getD hc.scopes

section

variable {c : Configuration}

theorem names_ofMerged (hc : c.WellFormed) :
    Table.names (ofMerged c []).scopes =
      (Table.names (globalScopes c)).filter (· ∉ c.patterns) ++ c.patterns :=
  names_insertAllLater _ (distinct_getD hc.scopes)

theorem wellFormed_ofMerged_nil (hc : c.WellFormed) : (ofMerged c []).WellFormed :=
  .ofMerged hc Table.distinct_nil (by simp)

theorem scopeSeverity_ofMerged (hc : c.WellFormed) (key pattern : String) :
    scopeSeverity (ofMerged c []).scopes key pattern =
      (c.severityIn key (.within pattern)).or
        (if pattern = globalScope then c.severityIn key .everywhere else none) := by
  have hglobal : ∀ o, Table.find? (globalScopes c) pattern = some o → o.WellFormed :=
    fun o ho => wellFormed_globalScopes hc _ (Table.mem_of_find? ho)
  have hfind := find?_insertAllLater (globalScopes c) (distinct_getD hc.scopes) pattern
  rw [← scopeSeverity_globalScopes]
  exact scopeSeverity_merge hfind hglobal key

theorem mem_scopeSkip_ofMerged (hc : c.WellFormed) {pattern linter : String} :
    linter ∈ scopeSkip (ofMerged c []).scopes pattern ↔
      linter ∈ c.skipIn (.within pattern) ∨
        pattern = globalScope ∧ linter ∈ c.skipIn .everywhere := by
  have hfind := find?_insertAllLater (globalScopes c) (distinct_getD hc.scopes) pattern
  rw [Configuration.skipIn, Configuration.skipIn, ← mem_scopeSkip_globalScopes]
  exact mem_scopeSkip_merge hfind

end

theorem isEmpty_globalOverride_withSeverity {c : Configuration} {key : String} {reach : Reach}
    (h : (c.severityIn key reach).isSome) (s : Severity) :
    (globalOverride (c.withSeverity key s reach)).isEmpty = (globalOverride c).isEmpty := by
  cases reach with
  | within pattern => rfl
  | everywhere =>
    have hnonempty : ∀ d : Configuration, (d.severityIn key .everywhere).isSome →
        (globalOverride d).isEmpty = false := by
      intro d hd
      refine Bool.eq_false_iff.mpr fun hempty => ?_
      simp only [ScopeOverride.isEmpty, globalOverride, Bool.and_eq_true, List.isEmpty_iff]
        at hempty
      rw [Configuration.severityIn, hempty.1.2] at hd
      cases hd
    rw [hnonempty c h, hnonempty]
    rw [Configuration.severityIn_withSeverity, if_pos rfl]
    rfl

theorem names_globalScopes_withSeverity {c : Configuration} {key : String} {reach : Reach}
    (h : (c.severityIn key reach).isSome) (s : Severity) :
    Table.names (globalScopes (c.withSeverity key s reach)) = Table.names (globalScopes c) := by
  rw [names_globalScopes_eq, names_globalScopes_eq, isEmpty_globalOverride_withSeverity h]

theorem names_ofMerged_withSeverity {c : Configuration} (hc : c.WellFormed) {key : String}
    {reach : Reach} (h : (c.severityIn key reach).isSome) (s : Severity) :
    Table.names (ofMerged (c.withSeverity key s reach) []).scopes =
      Table.names (ofMerged c []).scopes := by
  rw [names_ofMerged hc, names_ofMerged (hc.withSeverity key s reach),
    names_globalScopes_withSeverity h, Configuration.patterns_withSeverity h]

end ResolvedConfig

/-! ## Contributions -/

/-- Where contributions stand, and in which order. -/
structure Contributions (ι : Type) where
  /-- The pattern that a contribution stands at. -/
  pattern : ι → String
  /-- The order of the contributions that stand at one pattern. -/
  Above : ι → ι → Prop
  /-- The patterns as they are listed. -/
  listed : List String

namespace Contributions

variable {ι : Type} {m : Contributions ι} {stated : ι → Option Severity} {path key : String}

/-- No pattern is listed twice, and no two contributions are each above the other. -/
structure Lawful (m : Contributions ι) : Prop where
  nodup : m.listed.Nodup
  asymm : ∀ i j, m.Above i j → ¬ m.Above j i

/-- A contribution goes before another one: its pattern outranks the other one's, or they stand at
one pattern and it is above. -/
def Before (m : Contributions ι) (i j : ι) : Prop :=
  Outranks m.listed (m.pattern i) (m.pattern j) ∨ m.pattern i = m.pattern j ∧ m.Above i j

/-- A contribution says something about a file. -/
def Speaks (m : Contributions ι) (stated : ι → Option Severity) (path : String) (i : ι) : Prop :=
  (stated i).isSome ∧ globMatches (m.pattern i) (ResolvedConfig.slashed path) = true

/-- A contribution says something about a file before all others that do. -/
def Leads (m : Contributions ι) (stated : ι → Option Severity) (path : String) (i : ι) : Prop :=
  m.Speaks stated path i ∧ ∀ j, m.Speaks stated path j → j = i ∨ m.Before i j

/-- Scopes say about a key what the contributions say, at each pattern the one above all others. -/
structure Renders (m : Contributions ι) (stated : ι → Option Severity) (key : String)
    (scopes : Table ScopeOverride) : Prop where
  names : Table.names scopes <+ m.listed
  exists_first : ∀ pattern s, scopeSeverity scopes key pattern = some s →
    ∃ i, m.pattern i = pattern ∧ stated i = some s ∧
      ∀ j, m.pattern j = pattern → (stated j).isSome → j = i ∨ m.Above i j
  isSome : ∀ i, (stated i).isSome → (scopeSeverity scopes key (m.pattern i)).isSome

/-- Scopes render contributions if at each pattern they say what the first one of a list says. -/
theorem Renders.of_stack {scopes : Table ScopeOverride} (hnames : Table.names scopes <+ m.listed)
    (stack : String → List ι) (hstack : ∀ pattern, (stack pattern).Pairwise m.Above)
    (hmem : ∀ i pattern, i ∈ stack pattern → m.pattern i = pattern)
    (hall : ∀ i, (stated i).isSome → i ∈ stack (m.pattern i))
    (h : ∀ pattern, scopeSeverity scopes key pattern = (stack pattern).findSome? stated) :
    m.Renders stated key scopes where
  names := hnames
  exists_first pattern s hs := by
    rw [h] at hs
    obtain ⟨i, hi, hstated, hfirst⟩ := exists_first_of_findSome? (hstack pattern) hs
    refine ⟨i, hmem i pattern hi, hstated, fun j hj hsome => hfirst j ?_ hsome⟩
    rw [← hj]
    exact hall j hsome
  isSome i hi := by
    rw [h]
    exact List.findSome?_isSome_iff.mpr ⟨i, hall i hi, hi⟩

/-! ## The order -/

theorem Before.asymm (hm : m.Lawful) {i j : ι} (h : m.Before i j) : ¬ m.Before j i := by
  rintro (hrank' | ⟨heq', habove'⟩)
  · rcases h with hrank | ⟨heq, -⟩
    · exact hrank.asymm hm.nodup hrank'
    · exact hrank'.ne hm.nodup heq.symm
  · rcases h with hrank | ⟨-, habove⟩
    · exact hrank.ne hm.nodup heq'.symm
    · exact hm.asymm i j habove habove'

theorem Leads.unique (hm : m.Lawful) {i j : ι} (hi : m.Leads stated path i)
    (hj : m.Leads stated path j) : i = j := by
  rcases hi.2 j hj.1 with heq | hbefore
  · exact heq.symm
  · rcases hj.2 i hi.1 with heq | hbefore'
    · exact heq
    · exact absurd hbefore' (hbefore.asymm hm)

/-- Who leads depends only on which contributions say something. -/
theorem leads_congr {stated' : ι → Option Severity}
    (h : ∀ i, (stated i).isSome = (stated' i).isSome) (i : ι) :
    m.Leads stated path i ↔ m.Leads stated' path i := by
  simp only [Leads, Speaks, h]

/-! ## The leading contribution -/

section

variable {c : ResolvedConfig}

theorem Speaks.isSome_severity (hc : c.WellFormed)
    (h : m.Renders stated key c.scopes) {i : ι} (hi : m.Speaks stated path i) :
    ((c.scopeFor path).severityOf key).isSome :=
  ResolvedConfig.isSome_severityOf_scopeFor hc.scope hi.2 (h.isSome i hi.1)

/-- The severity of a file is what some leading contribution says. -/
theorem exists_leads (hc : c.WellFormed) (h : m.Renders stated key c.scopes) {s : Severity}
    (hs : (c.scopeFor path).severityOf key = some s) :
    ∃ i, m.Leads stated path i ∧ stated i = some s := by
  obtain ⟨pattern, hmatch, hat, hothers⟩ :=
    ResolvedConfig.exists_first_scope hc.distinct hc.scope hs
  obtain ⟨i, rfl, hstated, hfirst⟩ := h.exists_first pattern s hat
  refine ⟨i, ⟨⟨by rw [hstated]; rfl, hmatch⟩, fun j hj => ?_⟩, hstated⟩
  rcases hothers _ hj.2 (h.isSome j hj.1) with hpattern | hrank
  · rcases hfirst j hpattern hj.1 with heq | habove
    · exact Or.inl heq
    · exact Or.inr (Or.inr ⟨hpattern.symm, habove⟩)
  · exact Or.inr (Or.inl (hrank.mono h.names))

theorem Leads.severity_eq (hm : m.Lawful) (hc : c.WellFormed)
    (h : m.Renders stated key c.scopes) {i : ι} (hi : m.Leads stated path i) :
    (c.scopeFor path).severityOf key = stated i := by
  obtain ⟨s, hs⟩ := Option.isSome_iff_exists.mp (hi.1.isSome_severity hc h)
  obtain ⟨j, hj, hstated⟩ := exists_leads hc h hs
  rw [hs, hi.unique hm hj, hstated]

end

/-- The severity of a file follows a contribution, whatever that is made to say, if and only if the
contribution leads. -/
theorem follows_iff_leads [DecidableEq ι] (hm : m.Lawful) {i : ι} (hi : (stated i).isSome)
    (changed : Severity → ResolvedConfig) (path : String) (hwf : ∀ s, (changed s).WellFormed)
    (h : ∀ s, m.Renders (fun j => if j = i then some s else stated j) key (changed s).scopes) :
    (∀ s, ((changed s).scopeFor path).severityOf key = some s) ↔ m.Leads stated path i := by
  have hcongr : ∀ s j, m.Leads (fun j => if j = i then some s else stated j) path j ↔
      m.Leads stated path j := by
    intro s
    refine leads_congr fun j => ?_
    by_cases hj : j = i
    · subst hj
      rw [if_pos rfl, hi, Option.isSome_some]
    · rw [if_neg hj]
  constructor
  · intro hfollows
    -- Whoever leads says what the contribution is made to say, whichever severity that is.
    have hleader : ∀ s, ∃ j, m.Leads stated path j ∧ (j = i ∨ stated j = some s) := by
      intro s
      obtain ⟨j, hj, hstated⟩ := exists_leads (hwf s) (h s) (hfollows s)
      refine ⟨j, (hcongr s j).mp hj, ?_⟩
      by_cases hji : j = i
      · exact Or.inl hji
      · rw [if_neg hji] at hstated
        exact Or.inr hstated
    obtain ⟨first, hfirst, hoff⟩ := hleader .off
    obtain ⟨second, hsecond, herror⟩ := hleader .error
    obtain rfl := hfirst.unique hm hsecond
    rcases hoff with rfl | hoff
    · exact hfirst
    · rcases herror with rfl | herror
      · exact hfirst
      · rw [hoff] at herror
        cases herror
  · intro hleads s
    rw [((hcongr s i).mpr hleads).severity_eq hm (hwf s) (h s), if_pos rfl]

/-- A contribution decides, in that it says something and the severity follows it, if and only if it
leads. -/
theorem decides_iff_leads [DecidableEq ι] (hm : m.Lawful) {i : ι}
    {stated' : Severity → ι → Option Severity}
    (hstated : (stated i).isSome → ∀ s j, stated' s j = if j = i then some s else stated j)
    {changed : Severity → ResolvedConfig} (hwf : ∀ s, (changed s).WellFormed)
    (h : (stated i).isSome → ∀ s, m.Renders (stated' s) key (changed s).scopes) (path : String) :
    ((stated i).isSome ∧ ∀ s, ((changed s).scopeFor path).severityOf key = some s) ↔
      m.Leads stated path i := by
  by_cases hsome : (stated i).isSome
  · have hrenders : ∀ s, m.Renders (fun j => if j = i then some s else stated j) key
        (changed s).scopes := by
      intro s
      rw [← funext (hstated hsome s)]
      exact h hsome s
    rw [← follows_iff_leads hm hsome changed path hwf hrenders]
    exact and_iff_right hsome
  · exact iff_of_false (fun hdecides => hsome hdecides.1) fun hleads => hsome hleads.1.1

/-- Two configurations made of the same contributions, each in its own order, agree on a file if
and only if those that lead say the same. -/
theorem agree_iff {m' : Contributions ι} {path' : String} {c c' : ResolvedConfig}
    (hm : m.Lawful) (hm' : m'.Lawful) (hc : c.WellFormed) (hc' : c'.WellFormed)
    (h : m.Renders stated key c.scopes) (h' : m'.Renders stated key c'.scopes)
    (hspeaks : ∀ i, m.Speaks stated path i ↔ m'.Speaks stated path' i) :
    (c.scopeFor path).severityOf key = (c'.scopeFor path').severityOf key ↔
      ∀ i j, m.Leads stated path i → m'.Leads stated path' j → stated i = stated j := by
  constructor
  · intro heq i j hi hj
    rw [← hi.severity_eq hm hc h, heq, hj.severity_eq hm' hc' h']
  · intro hsame
    cases hs : (c.scopeFor path).severityOf key with
    | none =>
      refine Option.eq_none_iff_forall_ne_some.mpr (fun s hs' => ?_) |>.symm
      obtain ⟨j, hj, -⟩ := exists_leads hc' h' hs'
      have hsome := ((hspeaks j).mpr hj.1).isSome_severity hc h
      rw [hs] at hsome
      cases hsome
    | some s =>
      obtain ⟨i, hi, hstated⟩ := exists_leads hc h hs
      obtain ⟨s', hs'⟩ := Option.isSome_iff_exists.mp
        (((hspeaks i).mp hi.1).isSome_severity hc' h')
      obtain ⟨j, hj, hstated'⟩ := exists_leads hc' h' hs'
      rw [hs', ← hstated, hsame i j hi hj, hstated']

/-- The contributions that lead in two orders are the same, or they go the one before the other in
the first order, and the other way round in the second. -/
theorem Leads.eq_or_swapped {m' : Contributions ι} {path' : String} (hm : m.Lawful)
    (hm' : m'.Lawful) {i j : ι} (hi : m.Leads stated path i) (hj : m'.Leads stated path' j)
    (hspeaks : ∀ k, m.Speaks stated path k ↔ m'.Speaks stated path' k)
    (hpattern : m.pattern i = m.pattern j ↔ m'.pattern i = m'.pattern j) :
    i = j ∨
      Outranks m.listed (m.pattern i) (m.pattern j) ∧
        Outranks m'.listed (m'.pattern j) (m'.pattern i) ∨
      m.pattern i = m.pattern j ∧ m.Above i j ∧ m'.Above j i := by
  rcases hi.2 j ((hspeaks j).mpr hj.1) with heq | hbefore
  · exact Or.inl heq.symm
  rcases hj.2 i ((hspeaks i).mp hi.1) with heq | hbefore'
  · exact Or.inl heq
  right
  rcases hbefore with hrank | ⟨heq, habove⟩
  · rcases hbefore' with hrank' | ⟨heq', -⟩
    · exact Or.inl ⟨hrank, hrank'⟩
    · exact absurd (hpattern.mpr heq'.symm) (hrank.ne hm.nodup)
  · rcases hbefore' with hrank' | ⟨-, habove'⟩
    · exact absurd (hpattern.mp heq).symm (hrank'.ne hm'.nodup)
    · exact Or.inr ⟨heq, habove, habove'⟩

/-- If contributions that lead are the same or related, only related ones can make a difference. -/
theorem agree_iff_of_related {m' : Contributions ι} {path' : String} {c c' : ResolvedConfig}
    {related : ι → ι → Prop}
    (hm : m.Lawful) (hm' : m'.Lawful) (hc : c.WellFormed) (hc' : c'.WellFormed)
    (h : m.Renders stated key c.scopes) (h' : m'.Renders stated key c'.scopes)
    (hspeaks : ∀ i, m.Speaks stated path i ↔ m'.Speaks stated path' i)
    (hrelated : ∀ i j, m.Leads stated path i → m'.Leads stated path' j → i = j ∨ related i j) :
    (c.scopeFor path).severityOf key = (c'.scopeFor path').severityOf key ↔
      ∀ i j, related i j → m.Leads stated path i → m'.Leads stated path' j →
        stated i = stated j := by
  rw [agree_iff hm hm' hc hc' h h' hspeaks]
  constructor
  · intro hsame i j _ hi hj
    exact hsame i j hi hj
  · intro hsame i j hi hj
    rcases hrelated i j hi hj with rfl | hij
    · rfl
    · exact hsame i j hij hi hj

end Contributions

end LintFront
