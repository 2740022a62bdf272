import LintFront.Proofs.Layers

/-!
# Layers merged in any order

Merging is associative for every setting but the options of linters. There it is, if no path of
names leads to an object in one layer and to something else in a lower one.

* `Configuration.Agree`: two configurations whose options have their objects at the same paths.
* `Configuration.merge_assoc`: three layers, the lower two of which agree.
* `Configuration.foldl_collapse`: layers merged in groups.
-/

namespace LintFront

/-! ## Options -/

/-- The options of all linters as one object. -/
def optionsObject (t : Option (Table Value)) : Value := .object (t.getD [])

theorem optionsObject_mergeTables (t u : Option (Table Value)) :
    optionsObject (mergeTables Value.merge t u) = (optionsObject t).merge (optionsObject u) := by
  cases u <;> simp [optionsObject, mergeTables, Value.merge_object, Table.mergeWith]

theorem wellFormed_optionsObject {t : Option (Table Value)}
    (h : ∀ u, t = some u → (Value.object u).WellFormed) : (optionsObject t).WellFormed := by
  cases t with
  | none => exact .object Table.distinct_nil (by simp)
  | some u => exact h u rfl

theorem mergeOptions_assoc {t u v : Option (Table Value)}
    (ht : ∀ a, t = some a → (Value.object a).WellFormed)
    (hu : ∀ a, u = some a → (Value.object a).WellFormed)
    (hv : ∀ a, v = some a → (Value.object a).WellFormed)
    (h : (optionsObject u).Agree (optionsObject v)) :
    mergeTables Value.merge (mergeTables Value.merge t u) v =
      mergeTables Value.merge t (mergeTables Value.merge u v) := by
  refine Table.mergeTables_assoc (fun a ha => (ht a ha).distinct rfl)
    (fun a ha => (hu a ha).distinct rfl) (fun a ha => (hv a ha).distinct rfl) ?_
  rintro t u v rfl rfl rfl name a b c ha hb hc
  exact Value.merge_assoc ((ht t rfl).of_find? rfl ha) ((hu u rfl).of_find? rfl hb)
    ((hv v rfl).of_find? rfl hc) (h.member hb hc)

theorem mergeSeverity_assoc {t u v : Option (Table Severity)}
    (ht : ∀ a, t = some a → Table.Distinct a) (hu : ∀ a, u = some a → Table.Distinct a)
    (hv : ∀ a, v = some a → Table.Distinct a) :
    mergeTables keepFirst (mergeTables keepFirst t u) v =
      mergeTables keepFirst t (mergeTables keepFirst u v) :=
  Table.mergeTables_assoc ht hu hv fun _ _ _ _ _ _ _ _ _ _ _ _ _ => rfl

/-! ## Overrides -/

namespace ScopeOverride

/-- No path of options leads to an object in one override and to something else in the other. -/
def Agree (s t : ScopeOverride) : Prop :=
  (optionsObject s.linterConfig).Agree (optionsObject t.linterConfig)

theorem merge_assoc {s t u : ScopeOverride} (hs : s.WellFormed) (ht : t.WellFormed)
    (hu : u.WellFormed) (h : t.Agree u) : (s.merge t).merge u = s.merge (t.merge u) := by
  have hskip := unionOption_assoc s.skip t.skip u.skip
  have hseverity := mergeSeverity_assoc hs.severity ht.severity hu.severity
  have hoptions := mergeOptions_assoc hs.linterConfig ht.linterConfig hu.linterConfig h
  simp only [merge, hskip, hseverity, hoptions]

theorem Agree.merge_left {s t u : ScopeOverride} (ht : t.WellFormed) (hs : s.Agree u)
    (htu : t.Agree u) : (s.merge t).Agree u := by
  unfold Agree
  rw [merge, optionsObject_mergeTables]
  exact Value.Agree.merge_left (wellFormed_optionsObject ht.linterConfig) hs htu

end ScopeOverride

/-! ## Configurations -/

namespace Configuration

/-- No path of options leads to an object in one configuration and to something else in the other,
neither among the options for every file nor among those of a pattern that both have. -/
structure Agree (c d : Configuration) : Prop where
  options : (optionsObject c.linterConfig).Agree (optionsObject d.linterConfig)
  scopes : ∀ pattern s t, (c.scopes.getD []).find? pattern = some s →
    (d.scopes.getD []).find? pattern = some t → s.Agree t

variable {a b c d : Configuration}

theorem merge_assoc (ha : a.WellFormed) (hb : b.WellFormed) (hc : c.WellFormed)
    (h : b.Agree c) : (a.merge b).merge c = a.merge (b.merge c) := by
  have hoptions := mergeOptions_assoc ha.linterConfig hb.linterConfig hc.linterConfig h.options
  have hseverity := mergeSeverity_assoc ha.severity hb.severity hc.severity
  have hscopes : mergeTables ScopeOverride.merge
        (mergeTables ScopeOverride.merge a.scopes b.scopes) c.scopes =
      mergeTables ScopeOverride.merge a.scopes
        (mergeTables ScopeOverride.merge b.scopes c.scopes) := by
    refine Table.mergeTables_assoc ha.scopes hb.scopes hc.scopes ?_
    intro t u v ht hu hv name x y z hx hy hz
    refine ScopeOverride.merge_assoc (ha.scope t ht _ (Table.mem_of_find? hx))
      (hb.scope u hu _ (Table.mem_of_find? hy)) (hc.scope v hv _ (Table.mem_of_find? hz)) ?_
    exact h.scopes name y z (by simpa [hu] using hy) (by simpa [hv] using hz)
  simp only [merge, Option.or_assoc, unionOption_assoc, hoptions, hseverity, hscopes]

theorem Agree.merge_left (hc : c.WellFormed) (hbd : b.Agree d) (hcd : c.Agree d) :
    (b.merge c).Agree d := by
  refine ⟨?_, fun pattern s t hs ht => ?_⟩
  · rw [merge, optionsObject_mergeTables]
    exact hbd.options.merge_left (wellFormed_optionsObject hc.linterConfig) hcd.options
  · rw [merge, Table.find?_mergeTables _ _ hc.scopes, Option.merge_eq_some_iff] at hs
    rcases hs with ⟨hleft, -⟩ | ⟨-, hright⟩ | ⟨x, y, hx, hy, rfl⟩
    · exact hbd.scopes pattern s t hleft ht
    · exact hcd.scopes pattern s t hright ht
    · exact (hbd.scopes pattern x t hx ht).merge_left (hc.of_find? hy)
        (hcd.scopes pattern y t hy ht)

/-- Whether there are options for every file only, and none of them is an object. -/
def hasFlatOptions (c : Configuration) : Bool :=
  c.scopes.isNone && (c.linterConfig.getD []).all fun entry => entry.2.isFlat

theorem agree_of_hasFlatOptions (hc : c.hasFlatOptions = true) (hd : d.hasFlatOptions = true) :
    c.Agree d := by
  obtain ⟨hscopes, hoptions⟩ := Bool.and_eq_true_iff.mp hc
  obtain ⟨-, hoptions'⟩ := Bool.and_eq_true_iff.mp hd
  constructor
  · refine .of_members rfl fun name a b ha hb => Value.agree_of_isFlat ?_ ?_
    · exact List.all_eq_true.mp hoptions _ (Table.mem_of_find? ha)
    · exact List.all_eq_true.mp hoptions' _ (Table.mem_of_find? hb)
  · intro pattern s t hs
    rw [Option.isNone_iff_eq_none.mp hscopes] at hs
    cases hs

/-! ## Several layers -/

/-- Agreeing layers may be merged among themselves before they come below another one. -/
theorem merge_foldl (ha : a.WellFormed) (hb : b.WellFormed) {layers : List Configuration}
    (hlayers : ∀ c ∈ layers, c.WellFormed) (hagree : (b :: layers).Pairwise Agree) :
    a.merge (layers.foldl merge b) = layers.foldl merge (a.merge b) := by
  induction layers generalizing b with
  | nil => rfl
  | cons c rest ih =>
    obtain ⟨hb', hrest⟩ := List.pairwise_cons.mp hagree
    obtain ⟨hc', hpairs⟩ := List.pairwise_cons.mp hrest
    have hc := hlayers c List.mem_cons_self
    have hmerged : ((b.merge c) :: rest).Pairwise Agree :=
      List.pairwise_cons.mpr ⟨fun d hd =>
        Agree.merge_left hc (hb' d (List.mem_cons_of_mem _ hd)) (hc' d hd), hpairs⟩
    rw [List.foldl_cons, List.foldl_cons, merge_assoc ha hb hc (hb' c List.mem_cons_self)]
    exact ih (hb.merge hc) (fun d hd => hlayers d (List.mem_cons_of_mem _ hd)) hmerged

/-- Layers merged into the highest of them. -/
def collapse : List Configuration → Configuration
  | [] => {}
  | c :: below => below.foldl merge c

/-- Layers may be merged in groups, each of which is not empty. -/
theorem foldl_collapse (ha : a.WellFormed) {groups : List (List Configuration)}
    (hne : [] ∉ groups) (hwf : ∀ c ∈ groups.flatten, c.WellFormed)
    (hagree : groups.flatten.Pairwise Agree) :
    (groups.map collapse).foldl merge a = groups.flatten.foldl merge a := by
  induction groups generalizing a with
  | nil => rfl
  | cons group rest ih =>
    rw [List.flatten_cons] at hwf hagree
    obtain ⟨hgroup, hrest, -⟩ := List.pairwise_append.mp hagree
    have hgroupwf : ∀ c ∈ group, c.WellFormed := fun c hc => hwf c (List.mem_append_left _ hc)
    have hrestwf : ∀ c ∈ rest.flatten, c.WellFormed :=
      fun c hc => hwf c (List.mem_append_right _ hc)
    have hrestne : [] ∉ rest := fun h => hne (List.mem_cons_of_mem _ h)
    cases group with
    | nil => exact absurd List.mem_cons_self hne
    | cons b below =>
      have hb := hgroupwf b List.mem_cons_self
      have hstep : a.merge (collapse (b :: below)) = (b :: below).foldl merge a :=
        merge_foldl ha hb (fun c hc => hgroupwf c (List.mem_cons_of_mem _ hc)) hgroup
      rw [List.map_cons, List.foldl_cons, hstep, List.flatten_cons, List.foldl_append]
      exact ih (ha.foldl_merge hgroupwf) hrestne hrestwf hrest

end Configuration

end LintFront
