import LintFront.Proofs.Effective

/-!
# The settings of a file at once

The scopes that match a file are merged one after the other. What comes out can be read off all of
them at once: they are ranked by how specific their patterns are and by their places, and each
setting is joined along the ranks.

* `ResolvedConfig.Ranked`: the scopes of a file by rank, of which there is one list only.
* `ScopeOverride.composed`: the meaning of several overrides, the highest first.
* `ResolvedConfig.scopeFor_eq_composed`: the settings of a file have that meaning.
* `ResolvedConfig.scopeFor_composes`: what is skipped, which severity each key has, and what the
  options come to; what plays no part in it.
-/

namespace LintFront

/-! ## Joined lists and tables -/

theorem mem_joinLists {lists : List (Option (List String))} {entry : String} :
    entry ∈ (joinLists lists).getD [] ↔ ∃ list ∈ lists, entry ∈ list.getD [] := by
  have hpresent : (∃ list ∈ lists, entry ∈ list.getD []) ↔
      entry ∈ (lists.filterMap id).flatten := by
    rw [List.mem_flatten]
    constructor
    · rintro ⟨list, hlist, hentry⟩
      cases list with
      | none => cases hentry
      | some list => exact ⟨list, List.mem_filterMap.mpr ⟨_, hlist, rfl⟩, hentry⟩
    · rintro ⟨list, hlist, hentry⟩
      obtain ⟨_, hmem, rfl⟩ := List.mem_filterMap.mp hlist
      exact ⟨some list, hmem, hentry⟩
  rw [hpresent, joinLists]
  cases lists.filterMap id with
  | nil => rfl
  | cons head rest => exact List.mem_eraseDups

theorem Table.find?_joinOptional {α : Type} (f : α → List α → α)
    (tables : List (Option (Table α))) (name : String) :
    find? ((joinOptional f tables).getD []) name =
      joinValues f (tables.filterMap fun t => find? (t.getD []) name) := by
  have hpresent : tables.filterMap (fun t => find? (t.getD []) name) =
      (tables.filterMap id).filterMap (find? · name) := by
    rw [List.filterMap_filterMap]
    congr 1
    funext t
    cases t <;> rfl
  rw [hpresent, joinOptional]
  cases tables.filterMap id with
  | nil => rfl
  | cons head rest => exact find?_join f _ name

/-! ## Overrides -/

namespace ScopeOverride

/-- Several overrides, the highest first, as one: the linters that any of them skips, the highest
severity of each key, and the options of each linter joined in depth. -/
def composed (scopes : List ScopeOverride) : ScopeOverride where
  skip := joinLists (scopes.map skip)
  severity := Table.joinOptional (fun value _ => value) (scopes.map severity)
  linterConfig := Table.joinOptional Value.deep (scopes.map linterConfig)

/-- Overrides merged one after the other into nothing come to their joint meaning. -/
theorem foldl_merge_eq_composed {scopes : List ScopeOverride} (h : ∀ o ∈ scopes, o.WellFormed) :
    scopes.foldl merge {} = composed scopes := by
  have hseverity : ∀ t, some t ∈ none :: scopes.map severity → Table.Distinct t := by
    intro t ht
    obtain ⟨o, ho, hot⟩ := List.mem_map.mp (List.mem_of_ne_of_mem (by simp) ht)
    exact (h o ho).severity t hot
  have hoptions : ∀ t, some t ∈ none :: scopes.map linterConfig → (Value.object t).WellFormed := by
    intro t ht
    obtain ⟨o, ho, hot⟩ := List.mem_map.mp (List.mem_of_ne_of_mem (by simp) ht)
    exact (h o ho).linterConfig t hot
  rw [foldl_merge, foldl_unionOption, foldl_mergeSeverity hseverity, foldl_mergeOptions hoptions]
  rfl

variable {scopes : List ScopeOverride}

theorem skips_composed_iff {linter : String} :
    (composed scopes).skips linter = true ↔ ∃ o ∈ scopes, o.skips linter = true := by
  simp only [skips, List.contains_iff_mem, composed, mem_joinLists, List.mem_map]
  constructor
  · rintro ⟨_, ⟨o, ho, rfl⟩, hlinter⟩
    exact ⟨o, ho, hlinter⟩
  · rintro ⟨o, ho, hlinter⟩
    exact ⟨_, ⟨o, ho, rfl⟩, hlinter⟩

theorem severityOf_composed (key : String) :
    (composed scopes).severityOf key = scopes.findSome? (·.severityOf key) := by
  have hhead : ∀ values : List Severity,
      Table.joinValues (fun value _ => value) values = values.head? := by
    intro values
    cases values <;> rfl
  rw [severityOf, composed, Table.find?_joinOptional, hhead, List.filterMap_map,
    List.head?_filterMap]
  rfl

theorem find?_linterConfig_composed (linter : String) :
    Table.find? ((composed scopes).linterConfig.getD []) linter =
      Table.joinValues Value.deep
        (scopes.filterMap fun o => Table.find? (o.linterConfig.getD []) linter) := by
  rw [composed, Table.find?_joinOptional, List.filterMap_map]
  rfl

end ScopeOverride

/-! ## Ranks -/

/-- Whether a text is a pattern. -/
def isPattern (text : String) : Bool := (Glob.parse? text.toList).isSome

theorem isPattern_of_globMatches {pattern path : String} (h : globMatches pattern path = true) :
    isPattern pattern = true := by
  unfold globMatches at h
  unfold isPattern
  cases hparse : Glob.parse? pattern.toList with
  | none => rw [hparse] at h; cases h
  | some tokens => rfl

namespace ResolvedConfig

/-- The scopes that match a file by rank: the more specific one first, and of equally specific ones
the one that is listed later. -/
structure Ranked (c : ResolvedConfig) (path : String) (ranked : Table ScopeOverride) : Prop where
  perm : ranked.Perm (c.scopes.filter fun scope => globMatches scope.1 (slashed path))
  pairwise : ranked.Pairwise fun x y => Outranks (Table.names c.scopes) x.1 y.1

/-- The settings that come from ranked scopes. -/
structure ComposedOf (ranked : Table ScopeOverride) (s : ScopeOverride) : Prop where
  /-- No linter is listed twice. -/
  nodup : (s.skip.getD []).Nodup
  /-- A linter is skipped if one of the scopes skips it. -/
  skips : ∀ linter, s.skips linter = true ↔ ∃ scope ∈ ranked, scope.2.skips linter = true
  /-- A key has the severity of the first scope that sets it, and no other key has one. -/
  severity : ∀ key, s.severityOf key = ranked.findSome? (·.2.severityOf key)
  /-- The options of a linter are joined in depth. -/
  options : ∀ linter, Table.find? (s.linterConfig.getD []) linter =
    Table.joinValues Value.deep
      (ranked.filterMap fun scope => Table.find? (scope.2.linterConfig.getD []) linter)

variable {c d : ResolvedConfig} {path : String}

theorem ranked_matching (c : ResolvedConfig) (path : String) : c.Ranked path (c.matching path) where
  perm := by
    have hperm := (ranked_foldl [] []
      (c.scopes.filter fun scope => globMatches scope.1 (slashed path)) (by simp) .nil).1
    rwa [List.nil_append] at hperm
  pairwise := pairwise_matching c path

/-- There is one way only to rank scopes. -/
theorem Ranked.eq_matching (hc : c.WellFormed) {ranked : Table ScopeOverride}
    (h : c.Ranked path ranked) : ranked = c.matching path := by
  apply List.Perm.eq_of_pairwise _ h.pairwise (pairwise_matching c path)
    (h.perm.trans (ranked_matching c path).perm.symm)
  intro x y _ _ hxy hyx
  exact absurd hyx (hxy.asymm hc.distinct)

theorem scopeFor_eq_composed (hc : c.WellFormed) (path : String) :
    c.scopeFor path = ScopeOverride.composed ((c.matching path).map Prod.snd) := by
  apply ScopeOverride.foldl_merge_eq_composed
  intro o ho
  obtain ⟨scope, hscope, rfl⟩ := List.mem_map.mp ho
  exact hc.scope scope (mem_matching.mp hscope).1

theorem composedOf_matching (hc : c.WellFormed) (path : String) :
    ComposedOf (c.matching path) (c.scopeFor path) := by
  rw [scopeFor_eq_composed hc]
  constructor
  · exact nodup_joinLists _
  · intro linter
    rw [ScopeOverride.skips_composed_iff]
    constructor
    · rintro ⟨_, hmem, hskips⟩
      obtain ⟨scope, hscope, rfl⟩ := List.mem_map.mp hmem
      exact ⟨scope, hscope, hskips⟩
    · rintro ⟨scope, hscope, hskips⟩
      exact ⟨scope.2, List.mem_map_of_mem hscope, hskips⟩
  · intro key
    rw [ScopeOverride.severityOf_composed, List.findSome?_map]
    rfl
  · intro linter
    rw [ScopeOverride.find?_linterConfig_composed, List.filterMap_map]
    rfl

/-! ## What plays no part -/

/-- Scopes at texts that are no patterns play no part. -/
theorem scopeFor_congr (h : d.scopes.filter (isPattern ·.1) = c.scopes.filter (isPattern ·.1))
    (path : String) : d.scopeFor path = c.scopeFor path := by
  have hfilter : ∀ scopes : Table ScopeOverride,
      scopes.filter (fun scope => globMatches scope.1 (slashed path)) =
        (scopes.filter (isPattern ·.1)).filter fun scope => globMatches scope.1 (slashed path) := by
    intro scopes
    rw [List.filter_filter]
    refine List.filter_congr fun scope _ => ?_
    cases hmatch : globMatches scope.1 (slashed path) with
    | false => rfl
    | true => rw [isPattern_of_globMatches hmatch]; rfl
  rw [scopeFor, scopeFor, matching, matching, hfilter, h, ← hfilter]

theorem WellFormed.perm (hc : c.WellFormed) (h : d.scopes.Perm c.scopes) : d.WellFormed where
  distinct := (h.map Prod.fst).nodup_iff.mpr hc.distinct
  scope := fun scope hscope => hc.scope scope (h.mem_iff.mp hscope)

theorem perm_matching (h : d.scopes.Perm c.scopes) (path : String) :
    (d.matching path).Perm (c.matching path) :=
  (ranked_matching d path).perm.trans ((h.filter _).trans (ranked_matching c path).perm.symm)

/-- The order in which scopes are listed does not matter for what they skip. -/
theorem skips_scopeFor_of_perm (hc : c.WellFormed) (h : d.scopes.Perm c.scopes)
    (path linter : String) : (d.scopeFor path).skips linter = (c.scopeFor path).skips linter := by
  rw [Bool.eq_iff_iff, (composedOf_matching (hc.perm h) path).skips,
    (composedOf_matching hc path).skips]
  simp only [(perm_matching h path).mem_iff]

/-- No two patterns that match a file are equally specific. -/
def Untied (c : ResolvedConfig) (path : String) : Prop :=
  ∀ p ∈ Table.names c.scopes, ∀ q ∈ Table.names c.scopes, globMatches p (slashed path) = true →
    globMatches q (slashed path) = true → specificity p = specificity q → p = q

/-- The order in which scopes are listed does not matter at all if none of them are tied. -/
theorem scopeFor_of_perm (hc : c.WellFormed) (h : d.scopes.Perm c.scopes)
    (huntied : c.Untied path) : d.scopeFor path = c.scopeFor path := by
  have hspecific : ∀ {e : ResolvedConfig}, (e.matching path).Pairwise fun x y =>
      specificity y.1 ≤ specificity x.1 := by
    intro e
    refine (pairwise_matching e path).imp ?_
    rintro x y (hlt | ⟨heq, -⟩)
    · omega
    · omega
  have heq : d.matching path = c.matching path := by
    apply List.Perm.eq_of_pairwise _ hspecific hspecific (perm_matching h path)
    intro x y hx hy hyx hxy
    obtain ⟨hx, hxmatch⟩ := mem_matching.mp ((perm_matching h path).mem_iff.mp hx)
    obtain ⟨hy, hymatch⟩ := mem_matching.mp hy
    have hname : x.1 = y.1 := huntied x.1 (Table.mem_names_of_mem hx) y.1
      (Table.mem_names_of_mem hy) hxmatch hymatch (by omega)
    have hvalue := hc.distinct.find?_of_mem hx
    rw [hname, hc.distinct.find?_of_mem hy] at hvalue
    exact Prod.ext hname (Option.some.inj hvalue).symm
  rw [scopeFor, scopeFor, heq]

/-! ## The settings of a file -/

/-- The settings of a file are composed of the scopes that match it, by rank. Scopes at texts that
are no patterns play no part, and neither does the order of the scopes for what is skipped, nor for
anything if no two of those that match are equally specific. -/
theorem scopeFor_composes (hc : c.WellFormed) (path : String) :
    (∃ ranked, c.Ranked path ranked) ∧
      (∀ ranked, c.Ranked path ranked → ComposedOf ranked (c.scopeFor path)) ∧
      (∀ d : ResolvedConfig, d.scopes.filter (isPattern ·.1) = c.scopes.filter (isPattern ·.1) →
        d.scopeFor path = c.scopeFor path) ∧
      ∀ d : ResolvedConfig, d.scopes.Perm c.scopes →
        (∀ linter, (d.scopeFor path).skips linter = (c.scopeFor path).skips linter) ∧
          (c.Untied path → d.scopeFor path = c.scopeFor path) := by
  refine ⟨⟨_, ranked_matching c path⟩, fun ranked h => ?_, fun d h => scopeFor_congr h path,
    fun d h => ⟨skips_scopeFor_of_perm hc h path, scopeFor_of_perm hc h⟩⟩
  rw [h.eq_matching hc]
  exact composedOf_matching hc path

/-- Three scopes, each for some of the files of the next one, and one at a text that is no pattern.
The middle one has a number where the others have objects. -/
def threeScopes : ResolvedConfig where
  scopes := [
    ("***", { skip := some ["size"] }),
    ("**", {
      skip := some ["naming", "naming"]
      linterConfig := some [("style", .object [("quotes", .object [("kind", .null)])])] }),
    ("src/**", {
      severity := some [("naming", .warn), ("style", .off)]
      linterConfig := some [("style", .object [("quotes", .bool true), ("max", .null)])] }),
    ("src/lib/**", {
      skip := some ["style", "naming"]
      severity := some [("naming", .error)]
      linterConfig := some [("style", .object [("quotes", .object [])])] })]

theorem scopeFor_composes_three_scopes :
    threeScopes.WellFormed ∧
      (∃ ranked, threeScopes.Ranked "src\\lib\\a.ts" ranked ∧
        ComposedOf ranked (threeScopes.scopeFor "src\\lib\\a.ts")) ∧
      ({ threeScopes with scopes := threeScopes.scopes.tail } : ResolvedConfig).scopeFor
          "src\\lib\\a.ts" = threeScopes.scopeFor "src\\lib\\a.ts" ∧
      ({ threeScopes with scopes := threeScopes.scopes.reverse } : ResolvedConfig).scopeFor
          "src\\lib\\a.ts" = threeScopes.scopeFor "src\\lib\\a.ts" := by
  have hwf : threeScopes.WellFormed := by
    refine ⟨by decide, fun scope hscope => ⟨?_, ?_⟩⟩ <;> revert scope
    · simp [threeScopes, Table.Distinct, Table.names]
    · simp [threeScopes, Value.wellFormed_object_iff, Value.WellFormed.null, Value.WellFormed.bool,
        Table.Distinct, Table.names]
  have huntied : threeScopes.Untied "src\\lib\\a.ts" := by
    unfold Untied
    decide +kernel
  obtain ⟨⟨ranked, hranked⟩, hcomposed, hinvalid, horder⟩ :=
    scopeFor_composes hwf "src\\lib\\a.ts"
  exact ⟨hwf, ⟨ranked, hranked, hcomposed ranked hranked⟩, hinvalid _ rfl,
    (horder _ (List.reverse_perm _)).2 huntied⟩

end ResolvedConfig

end LintFront
