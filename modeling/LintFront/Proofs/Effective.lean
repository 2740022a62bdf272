import LintFront.Proofs.Trail

/-!
# What a file is set to

The settings of a file are put together from the scopes that match it, one after the other. Whether
they lead to something, and to what, can be read off the trails in these scopes: what a scope has
comes through if the scopes before it leave the place open.

* `ResolvedConfig.effective`: what a file is set to.
* `ResolvedConfig.Sets`: a scope that sets something for a file.
* `ResolvedConfig.scopeBefore`: the settings as far as they come from the scopes before a pattern.
* `ResolvedConfig.matching_of_find?_eq`: scopes that say something else come in the same order.
* `ResolvedConfig.effective_eq`: what a file is set to, divided at one of its scopes.
-/

namespace LintFront.ResolvedConfig

/-- Each pattern has one scope, and the tables of the scopes hold each name once. -/
structure WellFormed (c : ResolvedConfig) : Prop where
  distinct : Table.Distinct c.scopes
  scope : ∀ scope ∈ c.scopes, scope.2.WellFormed

/-- What a file is set to, or what is met on the way. -/
def effective (c : ResolvedConfig) (path : String) (setting : Setting) : Option Value :=
  ((c.scopeFor path).trail setting).value?

/-- The settings of a file as far as they come from scopes that go before a pattern. -/
def scopeBefore (c : ResolvedConfig) (path pattern : String) : ScopeOverride :=
  (((c.matching path).takeWhile (·.1 != pattern)).map Prod.snd).foldl ScopeOverride.merge {}

/-- How far the scope of a pattern leads to a setting. -/
def trailAt (c : ResolvedConfig) (setting : Setting) (pattern : String) : Trail :=
  .inside (·.trail setting) (Table.find? c.scopes pattern)

/-- The scope of a pattern sets something for a file. -/
def Sets (c : ResolvedConfig) (path : String) (setting : Setting) (pattern : String) : Prop :=
  ∃ scope, (pattern, scope) ∈ c.scopes ∧ globMatches pattern (slashed path) = true ∧
    (scope.leaf? setting).isSome

/-- Whatever the scopes of a file have on the way to a setting sets it. -/
def Clear (c : ResolvedConfig) (path : String) (setting : Setting) : Prop :=
  ∀ scope ∈ c.matching path, (scope.2.trail setting).value?.isSome → (scope.2.leaf? setting).isSome

variable {c d : ResolvedConfig} {path : String} {setting : Setting}

theorem WellFormed.of_find? (h : c.WellFormed) {pattern : String} {s : ScopeOverride}
    (hs : Table.find? c.scopes pattern = some s) : s.WellFormed :=
  h.scope _ (Table.mem_of_find? hs)

theorem Sets.exists_scope (hc : c.WellFormed) {pattern : String}
    (h : c.Sets path setting pattern) :
    globMatches pattern (slashed path) = true ∧ ∃ s x, Table.find? c.scopes pattern = some s ∧
      s.trail setting = .found setting.depth x ∧ x.members? = none := by
  obtain ⟨s, hs, hmatch, hleaf⟩ := h
  obtain ⟨x, hx⟩ := Option.isSome_iff_exists.mp hleaf
  exact ⟨hmatch, s, x, hc.distinct.find?_of_mem hs, ScopeOverride.trail_of_leaf? hx⟩

theorem Clear.depth_eq (hclear : c.Clear path setting) {pattern : String} {s : ScopeOverride}
    (hs : (pattern, s) ∈ c.matching path) {depth : Nat} {x : Value}
    (h : s.trail setting = .found depth x) : depth = setting.depth ∧ x.members? = none := by
  obtain ⟨y, hy⟩ := Option.isSome_iff_exists.mp (hclear _ hs (by rw [h]; rfl))
  obtain ⟨htrail, hleaf⟩ := ScopeOverride.trail_of_leaf? hy
  rw [h] at htrail
  cases htrail
  exact ⟨rfl, hleaf⟩

/-! ## The order of scopes -/

theorem insertRanked_map {g : String × ScopeOverride → String × ScopeOverride}
    (hg : ∀ scope, (g scope).1 = scope.1) (scope : String × ScopeOverride)
    (ranked : Table ScopeOverride) :
    insertRanked (g scope) (ranked.map g) = (insertRanked scope ranked).map g := by
  induction ranked with
  | nil => rfl
  | cons other rest ih =>
    rw [List.map_cons, insertRanked, insertRanked, hg, hg]
    split
    · rfl
    · rw [ih, List.map_cons]

/-- What the scopes say plays no part in their order. -/
theorem matching_map {g : String × ScopeOverride → String × ScopeOverride}
    (hg : ∀ scope, (g scope).1 = scope.1) (h : d.scopes = c.scopes.map g) (path : String) :
    d.matching path = (c.matching path).map g := by
  have hfilter : d.scopes.filter (fun scope => globMatches scope.1 (slashed path)) =
      (c.scopes.filter fun scope => globMatches scope.1 (slashed path)).map g := by
    rw [h, List.filter_map]
    simp only [Function.comp_def, hg]
  have hfold : ∀ (scopes ranked : Table ScopeOverride),
      (scopes.map g).foldl (fun ranked scope => insertRanked scope ranked) (ranked.map g) =
        (scopes.foldl (fun ranked scope => insertRanked scope ranked) ranked).map g := by
    intro scopes
    induction scopes with
    | nil => exact fun _ => rfl
    | cons head rest ih =>
      intro ranked
      rw [List.map_cons, List.foldl_cons, List.foldl_cons, insertRanked_map hg, ih]
  rw [matching, matching, hfilter]
  exact hfold _ []

theorem find?_map_snd (f : String → ScopeOverride → ScopeOverride) (scopes : Table ScopeOverride)
    (name : String) :
    Table.find? (scopes.map fun scope => (scope.1, f scope.1 scope.2)) name =
      (Table.find? scopes name).map (f name) := by
  induction scopes with
  | nil => rfl
  | cons head rest ih =>
    rw [List.map_cons, Table.find?_cons, Table.find?_cons, ih]
    split
    · rename_i h
      rw [eq_of_beq h, Option.map_some]
    · rfl

/-- Scopes that differ at one pattern only come in the same order. -/
theorem matching_of_find?_eq (hc : c.WellFormed) {pattern : String} {s : ScopeOverride}
    (hnames : Table.names d.scopes = Table.names c.scopes)
    (hfind : ∀ name, name ≠ pattern → Table.find? d.scopes name = Table.find? c.scopes name)
    (hs : Table.find? d.scopes pattern = some s) (path : String) :
    d.matching path =
      (c.matching path).map fun scope => (scope.1, if scope.1 = pattern then s else scope.2) := by
  refine matching_map (g := fun scope => (scope.1, if scope.1 = pattern then s else scope.2))
    (fun _ => rfl) ?_ path
  have hdistinct : Table.Distinct d.scopes := by
    unfold Table.Distinct
    rw [hnames]
    exact hc.distinct
  have hmapped : Table.names (c.scopes.map fun scope =>
      (scope.1, if scope.1 = pattern then s else scope.2)) = Table.names c.scopes := by
    rw [Table.names, List.map_map]
    rfl
  refine Table.ext_find hdistinct (hnames.trans hmapped.symm) fun name => ?_
  rw [find?_map_snd fun name o => if name = pattern then s else o]
  by_cases hname : name = pattern
  · subst hname
    have hold : (Table.find? c.scopes name).isSome := by
      rw [Table.find?_isSome_iff, ← hnames, ← Table.find?_isSome_iff, hs]
      rfl
    obtain ⟨o, ho⟩ := Option.isSome_iff_exists.mp hold
    rw [hs, ho, Option.map_some, if_pos rfl]
  · rw [hfind name hname]
    simp only [if_neg hname, Option.map_id']

theorem map_eq_self_of_ne {pattern : String} {scopes : Table ScopeOverride}
    (h : ∀ scope ∈ scopes, scope.1 ≠ pattern) (s : ScopeOverride) :
    scopes.map (fun scope => (scope.1, if scope.1 = pattern then s else scope.2)) = scopes := by
  refine (List.map_congr_left fun scope hscope => ?_).trans (List.map_id scopes)
  rw [if_neg (h scope hscope)]
  rfl

/-- The scopes of a file before one pattern and after it. -/
theorem matching_eq_append (hc : c.WellFormed) {pattern : String} {s : ScopeOverride}
    (hs : Table.find? c.scopes pattern = some s)
    (hmatch : globMatches pattern (slashed path) = true) :
    ∃ before after, c.matching path = before ++ (pattern, s) :: after ∧
      (∀ scope ∈ before, scope.1 ≠ pattern) ∧ (∀ scope ∈ after, scope.1 ≠ pattern) := by
  obtain ⟨before, after, hsplit⟩ :=
    List.append_of_mem (mem_matching.mpr ⟨Table.mem_of_find? hs, hmatch⟩)
  have hpairs := pairwise_matching c path
  rw [hsplit] at hpairs
  obtain ⟨-, hrest, hbefore⟩ := List.pairwise_append.mp hpairs
  refine ⟨before, after, hsplit, fun scope hscope => ?_, fun scope hscope => ?_⟩
  · exact (hbefore scope hscope _ List.mem_cons_self).ne hc.distinct
  · exact (((List.pairwise_cons.mp hrest).1 scope hscope).ne hc.distinct).symm

/-! ## Scopes put together -/

theorem trail_scopes_within (scopes : Table ScopeOverride) (setting : Setting) :
    ∀ t ∈ scopes.map (·.2.trail setting), t.Within setting.depth := by
  intro t ht
  obtain ⟨scope, -, rfl⟩ := List.mem_map.mp ht
  exact scope.2.trail_within setting

theorem trail_foldl_scopes (hc : c.WellFormed) {scopes : Table ScopeOverride}
    (h : ∀ scope ∈ scopes, scope ∈ c.matching path) :
    ((scopes.map Prod.snd).foldl ScopeOverride.merge {}).trail setting =
      (scopes.map (·.2.trail setting)).foldl Trail.merge (({} : ScopeOverride).trail setting) := by
  rw [ScopeOverride.trail_foldl_merge, List.map_map]
  · rfl
  · intro o ho
    obtain ⟨scope, hscope, rfl⟩ := List.mem_map.mp ho
    exact hc.scope scope (mem_matching.mp (h scope hscope)).1

/-- Scopes one of which sets something set it together. -/
theorem isSome_of_scope (hc : c.WellFormed) {scopes : Table ScopeOverride}
    (h : ∀ scope ∈ scopes, scope ∈ c.matching path) {scope : String × ScopeOverride} {x : Value}
    (hscope : scope ∈ scopes) (htrail : scope.2.trail setting = .found setting.depth x) :
    (((scopes.map Prod.snd).foldl ScopeOverride.merge {}).trail setting).value?.isSome := by
  rw [trail_foldl_scopes hc h]
  refine Trail.value?_foldl_isSome (ScopeOverride.trail_within {} setting)
    (trail_scopes_within scopes setting) (v := x) (Or.inr ?_)
  exact List.mem_map.mpr ⟨scope, hscope, htrail⟩

/-! ## Scopes divided at one pattern -/

section Divided

variable {pattern : String} {s : ScopeOverride} {before after : Table ScopeOverride}

theorem scopeBefore_eq (hsplit : c.matching path = before ++ (pattern, s) :: after)
    (hbefore : ∀ scope ∈ before, scope.1 ≠ pattern) :
    c.scopeBefore path pattern = (before.map Prod.snd).foldl ScopeOverride.merge {} := by
  have htake : (c.matching path).takeWhile (·.1 != pattern) = before := by
    rw [hsplit, List.takeWhile_append_of_pos (by simpa using hbefore)]
    simp
  rw [scopeBefore, htake]

theorem mem_matching_of_before (hsplit : c.matching path = before ++ (pattern, s) :: after) :
    ∀ scope ∈ before, scope ∈ c.matching path := by
  intro scope hscope
  rw [hsplit]
  exact List.mem_append_left _ hscope

theorem trail_scopeBefore (hc : c.WellFormed)
    (hsplit : c.matching path = before ++ (pattern, s) :: after)
    (hbefore : ∀ scope ∈ before, scope.1 ≠ pattern) :
    (c.scopeBefore path pattern).trail setting =
      (before.map (·.2.trail setting)).foldl Trail.merge (({} : ScopeOverride).trail setting) := by
  rw [scopeBefore_eq hsplit hbefore, trail_foldl_scopes hc (mem_matching_of_before hsplit)]

theorem isSome_scopeBefore (hc : c.WellFormed)
    (hsplit : c.matching path = before ++ (pattern, s) :: after)
    (hbefore : ∀ scope ∈ before, scope.1 ≠ pattern) {scope : String × ScopeOverride} {x : Value}
    (hscope : scope ∈ before) (htrail : scope.2.trail setting = .found setting.depth x) :
    ((c.scopeBefore path pattern).trail setting).value?.isSome := by
  rw [scopeBefore_eq hsplit hbefore]
  exact isSome_of_scope hc (mem_matching_of_before hsplit) hscope htrail

/-- The settings of a file come from the scopes before a pattern, the scope of the pattern and the
scopes after it. -/
theorem effective_eq (hc : c.WellFormed)
    (hsplit : c.matching path = before ++ (pattern, s) :: after)
    (hbefore : ∀ scope ∈ before, scope.1 ≠ pattern) :
    c.effective path setting =
      ((after.map (·.2.trail setting)).foldl Trail.merge
        (((c.scopeBefore path pattern).trail setting).merge (s.trail setting))).value? := by
  have hwf : ∀ scope ∈ before ++ (pattern, s) :: after, scope.2.WellFormed := by
    intro scope hscope
    rw [← hsplit] at hscope
    exact hc.scope scope (mem_matching.mp hscope).1
  have hs : s.WellFormed := hwf (pattern, s) (by simp)
  have hafter : ∀ o ∈ after.map Prod.snd, o.WellFormed := by
    intro o ho
    obtain ⟨scope, hscope, rfl⟩ := List.mem_map.mp ho
    exact hwf scope (List.mem_append_right _ (List.mem_cons_of_mem _ hscope))
  rw [effective, scopeFor, hsplit, List.map_append, List.map_cons, List.foldl_append,
    List.foldl_cons, ← scopeBefore_eq hsplit hbefore, ScopeOverride.trail_foldl_merge _ hafter,
    ScopeOverride.trail_merge _ hs, List.map_map]
  rfl

end Divided

theorem effective_of_admits (hc : c.WellFormed) {pattern : String} {s : ScopeOverride}
    {depth : Nat} {v : Value} (hs : Table.find? c.scopes pattern = some s)
    (hmatch : globMatches pattern (slashed path) = true)
    (habove : ((c.scopeBefore path pattern).trail setting).Admits depth)
    (htrail : s.trail setting = .found depth v) (hv : v.members? = none) :
    c.effective path setting = some v := by
  obtain ⟨before, after, hsplit, hbefore, -⟩ := matching_eq_append hc hs hmatch
  rw [effective_eq hc hsplit hbefore, htrail, Trail.merge_of_admits habove,
    Trail.foldl_merge_found hv]
  rfl

/-- What a file is set to comes from a scope that is left open by those before it. -/
theorem exists_scope_of_effective (hc : c.WellFormed)
    (h : (c.effective path setting).isSome) :
    ∃ pattern s depth x, Table.find? c.scopes pattern = some s ∧
      globMatches pattern (slashed path) = true ∧ s.trail setting = .found depth x ∧
      ((c.scopeBefore path pattern).trail setting).Admits depth := by
  rw [effective, scopeFor, trail_foldl_scopes hc fun _ hscope => hscope] at h
  obtain ⟨firsts, depth, x, lasts, htrails, hadmits⟩ :=
    Trail.exists_admitted (ScopeOverride.trail_empty setting) h
  obtain ⟨before, rest, hsplit, rfl, hrest⟩ := List.map_eq_append_iff.mp htrails
  obtain ⟨⟨pattern, s⟩, after, rfl, hfound, rfl⟩ := List.map_eq_cons_iff.mp hrest
  have hmem : (pattern, s) ∈ c.matching path := by
    rw [hsplit]
    simp
  obtain ⟨hscope, hmatch⟩ := mem_matching.mp hmem
  have hpairs := pairwise_matching c path
  rw [hsplit] at hpairs
  have hbefore : ∀ scope ∈ before, scope.1 ≠ pattern := fun scope h =>
    ((List.pairwise_append.mp hpairs).2.2 scope h _ List.mem_cons_self).ne hc.distinct
  refine ⟨pattern, s, depth, x, hc.distinct.find?_of_mem hscope, hmatch, hfound, ?_⟩
  rw [trail_scopeBefore hc hsplit hbefore]
  exact hadmits

end LintFront.ResolvedConfig
