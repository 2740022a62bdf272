import LintFront.Proofs.Layers
import LintFront.Config.Resolved

/-!
# Which scope decides

The scopes that match a file are put in an order, and the first one that says something about a
key decides it. The order is strict: of two scopes one always goes before the other.

* `Outranks`: the order of two patterns, given all of them as they are listed.
* `ResolvedConfig.pairwise_matching`: the scopes of a file are in that order.
* `ResolvedConfig.severityOf_scopeFor`: the first of them that has a severity gives it.
* `ResolvedConfig.exists_first_scope`: its pattern goes before those of all others that have one.
* `ResolvedConfig.names_insertAllLater`, `ResolvedConfig.find?_insertAllLater`: scopes that come in
  later.
-/

namespace LintFront

open scoped List

/-! ## The first one in an order -/

/-- The first element with a value comes before all others that have one. -/
theorem exists_first_of_findSome? {α β : Type} {R : α → α → Prop} {l : List α} {f : α → Option β}
    {b : β} (hl : l.Pairwise R) (h : l.findSome? f = some b) :
    ∃ a ∈ l, f a = some b ∧ ∀ a' ∈ l, (f a').isSome → a' = a ∨ R a a' := by
  obtain ⟨before, a, after, rfl, ha, hbefore⟩ := List.findSome?_eq_some_iff.mp h
  refine ⟨a, by simp, ha, fun a' ha' hsome => ?_⟩
  have hafter := (List.pairwise_cons.mp (List.pairwise_append.mp hl).2.1).1
  rcases List.mem_append.mp ha' with hmem | hmem
  · rw [hbefore a' hmem] at hsome
    cases hsome
  · rcases List.mem_cons.mp hmem with rfl | hmem
    · exact Or.inl rfl
    · exact Or.inr (hafter a' hmem)

theorem exists_index_of_findSome? {α β : Type} {l : List α} {f : α → Option β} {b : β}
    (h : l.findSome? f = some b) :
    ∃ i : Nat, l[i]?.bind f = some b ∧ ∀ j : Nat, (l[j]?.bind f).isSome → j = i ∨ i < j := by
  obtain ⟨before, a, after, rfl, ha, hbefore⟩ := List.findSome?_eq_some_iff.mp h
  refine ⟨before.length, by simp [ha], fun j hj => ?_⟩
  rcases Nat.lt_or_ge j before.length with hlt | hle
  · rw [List.getElem?_append_left hlt, List.getElem?_eq_getElem hlt, Option.bind_some,
      hbefore _ (List.getElem_mem hlt)] at hj
    cases hj
  · omega

theorem exists_of_isSome_bind {α β : Type} {o : Option α} {f : α → Option β}
    (h : (o.bind f).isSome) : ∃ a, o = some a ∧ (f a).isSome := by
  cases o with
  | none => cases h
  | some a => exact ⟨a, rfl, h⟩

theorem pair_sublist_append {α : Type} {x : α} {l : List α} (h : x ∈ l) (y : α) :
    [x, y] <+ l ++ [y] := (List.singleton_sublist.mpr h).append (List.Sublist.refl [y])

/-! ## The order of patterns -/

/-- One pattern goes before another: it is more specific, or as specific and listed later. -/
def Outranks (patterns : List String) (p q : String) : Prop :=
  specificity q < specificity p ∨ specificity p = specificity q ∧ [q, p] <+ patterns

theorem Outranks.mono {patterns more : List String} (h : patterns <+ more) {p q : String}
    (hpq : Outranks patterns p q) : Outranks more p q := by
  rcases hpq with hlt | ⟨heq, hlisted⟩
  · exact Or.inl hlt
  · exact Or.inr ⟨heq, hlisted.trans h⟩

theorem not_sublist_swap {α : Type} {l : List α} (hl : l.Nodup) {x y : α} (h : [x, y] <+ l) :
    ¬ [y, x] <+ l := by
  induction l with
  | nil => simp at h
  | cons head rest ih =>
    obtain ⟨hhead, hrest⟩ := List.nodup_cons.mp hl
    intro h'
    rcases List.sublist_cons_iff.mp h with hxy | ⟨_, hcons, hy⟩
    · rcases List.sublist_cons_iff.mp h' with hyx | ⟨_, hcons, -⟩
      · exact ih hrest hxy hyx
      · cases hcons
        exact hhead (hxy.subset (by simp))
    · cases hcons
      rcases List.sublist_cons_iff.mp h' with hyx | ⟨_, hcons, -⟩
      · exact hhead (hyx.subset (by simp))
      · cases hcons
        exact hhead (hy.subset (by simp))

/-- Nothing comes before the head of a list without repeats. -/
theorem not_pair_sublist_head {head x : String} {l : List String} (h : (head :: l).Nodup) :
    ¬ [x, head] <+ head :: l := by
  intro hpair
  have hmem : head ∈ l := by
    rcases List.sublist_cons_iff.mp hpair with hrest | ⟨_, hcons, hrest⟩
    · exact hrest.subset (by simp)
    · cases hcons
      exact hrest.subset (by simp)
  exact (List.nodup_cons.mp h).1 hmem

theorem pair_sublist_of_append {x y : String} {a b : List String} (h : [x, y] <+ a ++ b)
    (hx : x ∉ a) : [x, y] <+ b := by
  obtain ⟨before, after, heq, hbefore, hafter⟩ := List.sublist_append_iff.mp h
  cases before with
  | nil =>
    rw [List.nil_append] at heq
    rwa [heq]
  | cons head rest =>
    obtain ⟨rfl, -⟩ := List.cons.inj heq
    exact absurd (hbefore.subset List.mem_cons_self) hx

namespace ResolvedConfig

/-! ## The scopes of a file -/

theorem perm_insertRanked (scope : String × ScopeOverride) (ranked : Table ScopeOverride) :
    (insertRanked scope ranked).Perm (scope :: ranked) := by
  induction ranked with
  | nil => exact .refl _
  | cons other rest ih =>
    rw [insertRanked]
    split
    · exact .refl _
    · exact (ih.cons other).trans (.swap scope other rest)

theorem pairwise_insertRanked {patterns : List String} {scope : String × ScopeOverride}
    {ranked : Table ScopeOverride} (hlisted : ∀ other ∈ ranked, [other.1, scope.1] <+ patterns)
    (h : ranked.Pairwise fun x y => Outranks patterns x.1 y.1) :
    (insertRanked scope ranked).Pairwise fun x y => Outranks patterns x.1 y.1 := by
  induction ranked with
  | nil => exact List.pairwise_singleton _ _
  | cons other rest ih =>
    obtain ⟨hother, hrest⟩ := List.pairwise_cons.mp h
    rw [insertRanked]
    split
    · rename_i hle
      refine List.pairwise_cons.mpr ⟨fun x hx => ?_, h⟩
      have hspecific : specificity x.1 ≤ specificity other.1 := by
        rcases List.mem_cons.mp hx with rfl | hx
        · exact Nat.le_refl _
        · rcases hother x hx with hlt | ⟨heq, -⟩
          · exact Nat.le_of_lt hlt
          · exact Nat.le_of_eq heq.symm
      rcases Nat.lt_or_eq_of_le (Nat.le_trans hspecific hle) with hlt | heq
      · exact Or.inl hlt
      · exact Or.inr ⟨heq.symm, hlisted x hx⟩
    · rename_i hle
      refine List.pairwise_cons.mpr ⟨fun x hx => ?_,
        ih (fun x hx => hlisted x (List.mem_cons_of_mem _ hx)) hrest⟩
      rcases List.mem_cons.mp ((perm_insertRanked scope rest).mem_iff.mp hx) with rfl | hx
      · exact Or.inl (Nat.lt_of_not_le hle)
      · exact hother x hx

/-- Scopes put in order one after the other, each one listed after those before it. -/
theorem ranked_foldl (patterns : List String) (ranked scopes : Table ScopeOverride)
    (hlisted : ∀ scope ∈ ranked, scope.1 ∈ patterns)
    (h : ranked.Pairwise fun x y => Outranks patterns x.1 y.1) :
    (scopes.foldl (fun ranked scope => insertRanked scope ranked) ranked).Perm
        (ranked ++ scopes) ∧
      (scopes.foldl (fun ranked scope => insertRanked scope ranked) ranked).Pairwise
        fun x y => Outranks (patterns ++ Table.names scopes) x.1 y.1 := by
  induction scopes generalizing ranked patterns with
  | nil => simpa [Table.names] using h
  | cons scope rest ih =>
    have hperm := perm_insertRanked scope ranked
    have hall : ∀ other ∈ insertRanked scope ranked, other.1 ∈ patterns ++ [scope.1] := by
      intro other hother
      rcases List.mem_cons.mp (hperm.mem_iff.mp hother) with rfl | hother
      · simp
      · exact List.mem_append_left _ (hlisted other hother)
    have hstep := pairwise_insertRanked
      (fun other hother => pair_sublist_append (hlisted other hother) scope.1)
      (h.imp fun hxy => Outranks.mono (List.sublist_append_left _ _) hxy)
    obtain ⟨hrest, hpairwise⟩ := ih _ _ hall hstep
    refine ⟨hrest.trans ?_, ?_⟩
    · exact (hperm.append_right rest).trans List.perm_middle.symm
    · simpa [Table.names] using hpairwise

theorem mem_matching {c : ResolvedConfig} {path : String} {scope : String × ScopeOverride} :
    scope ∈ c.matching path ↔ scope ∈ c.scopes ∧ globMatches scope.1 (slashed path) := by
  have hperm := (ranked_foldl [] []
    (c.scopes.filter fun scope => globMatches scope.1 (slashed path)) (by simp) .nil).1
  rw [matching, hperm.mem_iff, List.nil_append, List.mem_filter]

/-- The scopes of a file are in order, the first one before all others. -/
theorem pairwise_matching (c : ResolvedConfig) (path : String) :
    (c.matching path).Pairwise fun x y => Outranks (Table.names c.scopes) x.1 y.1 :=
  (ranked_foldl [] []
    (c.scopes.filter fun scope => globMatches scope.1 (slashed path)) (by simp) .nil).2.imp
    fun hxy => Outranks.mono (List.filter_sublist.map Prod.fst) hxy

end ResolvedConfig

/-! ## Severities -/

/-- The severity of a key, if an override sets it. -/
def ScopeOverride.severityOf (s : ScopeOverride) (key : String) : Option Severity :=
  (s.severity.getD []).find? key

theorem find?_mergeSeverity (t : Option (Table Severity)) {u : Option (Table Severity)}
    (hu : ∀ v, u = some v → v.Distinct) (key : String) :
    ((mergeTables keepFirst t u).getD []).find? key =
      ((t.getD []).find? key).or ((u.getD []).find? key) := by
  rw [Table.find?_mergeTables _ _ hu]
  cases (t.getD []).find? key <;> cases (u.getD []).find? key <;> rfl

theorem ScopeOverride.severityOf_merge (s : ScopeOverride) {lower : ScopeOverride}
    (h : lower.WellFormed) (key : String) :
    (s.merge lower).severityOf key = (s.severityOf key).or (lower.severityOf key) :=
  find?_mergeSeverity s.severity h.severity key

theorem ScopeOverride.severityOf_foldl_merge (s : ScopeOverride) {lower : List ScopeOverride}
    (h : ∀ o ∈ lower, o.WellFormed) (key : String) :
    (lower.foldl merge s).severityOf key =
      (s.severityOf key).or (lower.findSome? (·.severityOf key)) := by
  induction lower generalizing s with
  | nil => simp
  | cons head rest ih =>
    rw [List.foldl_cons, ih _ fun o ho => h o (List.mem_cons_of_mem _ ho),
      s.severityOf_merge (h head List.mem_cons_self), Option.or_assoc, List.findSome?_cons]
    cases head.severityOf key <;> rfl

namespace ResolvedConfig

theorem severityOf_scopeFor {c : ResolvedConfig} (h : ∀ scope ∈ c.scopes, scope.2.WellFormed)
    (path key : String) :
    (c.scopeFor path).severityOf key = (c.matching path).findSome? (·.2.severityOf key) := by
  rw [scopeFor, ScopeOverride.severityOf_foldl_merge, List.findSome?_map]
  · rfl
  · intro o ho
    obtain ⟨scope, hscope, rfl⟩ := List.mem_map.mp ho
    exact h scope (mem_matching.mp hscope).1

/-- What the scope of a pattern says is part of a scope that matches the file. -/
theorem exists_mem_matching {c : ResolvedConfig} {pattern path key : String}
    (hmatch : globMatches pattern (slashed path) = true)
    (hset : ((Table.find? c.scopes pattern).bind (·.severityOf key)).isSome) :
    ∃ scope ∈ c.matching path, scope.1 = pattern ∧ (scope.2.severityOf key).isSome := by
  obtain ⟨o, ho, hsome⟩ := exists_of_isSome_bind hset
  exact ⟨(pattern, o), mem_matching.mpr ⟨Table.mem_of_find? ho, hmatch⟩, rfl, hsome⟩

theorem isSome_severityOf_scopeFor {c : ResolvedConfig}
    (h : ∀ scope ∈ c.scopes, scope.2.WellFormed) {pattern path key : String}
    (hmatch : globMatches pattern (slashed path) = true)
    (hset : ((Table.find? c.scopes pattern).bind (·.severityOf key)).isSome) :
    ((c.scopeFor path).severityOf key).isSome := by
  obtain ⟨scope, hscope, -, hsome⟩ := exists_mem_matching hmatch hset
  rw [severityOf_scopeFor h]
  exact List.findSome?_isSome_iff.mpr ⟨scope, hscope, hsome⟩

/-- The severity of a file is that of one scope, which goes before all others that have one. -/
theorem exists_first_scope {c : ResolvedConfig} (hdistinct : Table.Distinct c.scopes)
    (h : ∀ scope ∈ c.scopes, scope.2.WellFormed) {path key : String} {s : Severity}
    (hs : (c.scopeFor path).severityOf key = some s) :
    ∃ pattern, globMatches pattern (slashed path) = true ∧
      (Table.find? c.scopes pattern).bind (·.severityOf key) = some s ∧
      ∀ other, globMatches other (slashed path) = true →
        ((Table.find? c.scopes other).bind (·.severityOf key)).isSome →
          other = pattern ∨ Outranks (Table.names c.scopes) pattern other := by
  rw [severityOf_scopeFor h] at hs
  obtain ⟨first, hfirst, hvalue, hothers⟩ := exists_first_of_findSome? (pairwise_matching c path) hs
  obtain ⟨hmem, hmatch⟩ := mem_matching.mp hfirst
  refine ⟨first.1, hmatch, ?_, fun other hother hset => ?_⟩
  · rw [hdistinct.find?_of_mem hmem]
    exact hvalue
  · obtain ⟨scope, hscope, rfl, hsome⟩ := exists_mem_matching hother hset
    rcases hothers scope hscope hsome with rfl | hrank
    · exact Or.inl rfl
    · exact Or.inr hrank

/-! ## Scopes that come in later -/

theorem names_insertLater (scopes : Table ScopeOverride) (pattern : String)
    (scope : ScopeOverride) :
    Table.names (insertLater scopes pattern scope) =
      (Table.names scopes).filter (· != pattern) ++ [pattern] := by
  rw [insertLater]
  cases h : Table.find? scopes pattern with
  | none =>
    have hnew : ∀ name ∈ Table.names scopes, (name != pattern) = true := by
      intro name hname
      have hne : name ≠ pattern := fun e => Table.find?_eq_none_iff.mp h (e ▸ hname)
      simpa using hne
    rw [List.filter_eq_self.mpr hnew]
    simp [Table.names]
  | some present =>
    simp only [Table.names, Table.erase, List.map_append, List.filter_map]
    rfl

theorem find?_erase (scopes : Table ScopeOverride) (pattern name : String) :
    Table.find? (Table.erase scopes pattern) name =
      if name = pattern then none else Table.find? scopes name := by
  induction scopes with
  | nil => simp [Table.erase]
  | cons entry rest ih =>
    obtain ⟨key, value⟩ := entry
    simp only [Table.erase, List.filter_cons] at ih ⊢
    by_cases hkey : key = pattern
    · subst hkey
      simp only [bne_self_eq_false, Bool.false_eq_true, if_false, ih, Table.find?_cons]
      by_cases hname : name = key <;> simp [hname]
    · simp only [bne_iff_ne, ne_eq, hkey, not_false_eq_true, if_true, Table.find?_cons, ih]
      by_cases hname : name = key
      · subst hname
        simp [hkey]
      · simp [hname]

theorem find?_insertLater (scopes : Table ScopeOverride) (pattern : String)
    (scope : ScopeOverride) (name : String) :
    Table.find? (insertLater scopes pattern scope) name =
      if name = pattern then
        (some scope).merge ScopeOverride.merge (Table.find? scopes pattern)
      else Table.find? scopes name := by
  rw [insertLater]
  cases h : Table.find? scopes pattern with
  | none =>
    simp only [Table.find?, List.lookup_append] at h ⊢
    by_cases hname : name = pattern
    · simp [hname, h]
    · have : (name == pattern) = false := by simpa using hname
      simp [hname, this, List.lookup_cons]
  | some present =>
    have herase := find?_erase scopes pattern name
    simp only [Table.find?, List.lookup_append] at herase ⊢
    rw [herase]
    by_cases hname : name = pattern
    · simp [hname]
    · have : (name == pattern) = false := by simpa using hname
      simp [hname, this, List.lookup_cons]

theorem names_insertAllLater (scopes : Table ScopeOverride) {later : Table ScopeOverride}
    (h : later.Distinct) :
    Table.names (insertAllLater scopes later) =
      (Table.names scopes).filter (· ∉ Table.names later) ++ Table.names later := by
  induction later generalizing scopes with
  | nil => simp [insertAllLater, Table.names, List.filter_eq_self.mpr]
  | cons entry rest ih =>
    obtain ⟨pattern, scope⟩ := entry
    obtain ⟨hpattern, hrest⟩ := List.nodup_cons.mp h
    have hstep : insertAllLater scopes ((pattern, scope) :: rest) =
        insertAllLater (insertLater scopes pattern scope) rest := rfl
    rw [hstep, ih _ hrest, names_insertLater, Table.names_cons, List.filter_append,
      List.filter_filter]
    have hkept : [pattern].filter (· ∉ Table.names rest) = [pattern] := by
      have : pattern ∉ Table.names rest := hpattern
      simp [this]
    rw [hkept, List.append_assoc, List.singleton_append]
    congr 1
    refine List.filter_congr fun name _ => ?_
    by_cases hname : name = pattern <;> simp [hname]

theorem find?_insertAllLater (scopes : Table ScopeOverride) {later : Table ScopeOverride}
    (h : later.Distinct) (name : String) :
    Table.find? (insertAllLater scopes later) name =
      (Table.find? later name).merge ScopeOverride.merge (Table.find? scopes name) := by
  induction later generalizing scopes with
  | nil => simp [insertAllLater]
  | cons entry rest ih =>
    obtain ⟨pattern, scope⟩ := entry
    obtain ⟨hpattern, hrest⟩ := List.nodup_cons.mp h
    have hstep : insertAllLater scopes ((pattern, scope) :: rest) =
        insertAllLater (insertLater scopes pattern scope) rest := rfl
    rw [hstep, ih _ hrest, find?_insertLater, Table.find?_cons]
    by_cases hname : name = pattern
    · subst hname
      rw [Table.find?_eq_none_iff.mpr hpattern]
      simp
    · simp [hname]

end ResolvedConfig

end LintFront
