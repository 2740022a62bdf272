import LintFront.Plugin.Export
import LintFront.Proofs.Reading
import Mathlib.Data.List.Forall2
import Mathlib.Logic.Function.Iterate
import Mathlib.Logic.Relation

/-!
# Lists of exports and what wraps them

A plugin exports a list of exports as it is, as the `linters` of an object, or as the `default` of
its module. Under `linters` a list is always read item by item. Everywhere else it is read as a
linter first, field by field, and only if it is none its items count.

* `Tree.Faultless`, `Tree.within`: a document that is read to its end, and one in an object.
* `LinterDescriptor.read_list_eq_ok_iff`: the lists that are linters.
* `PluginExport.Yields`, `PluginExport.YieldsAll`: the linters of a document, and those of several
  documents in order.
* `PluginExport.Rewraps`, `PluginExport.yields_iff_of_rewraps`: where a part of a document is
  wrapped and no list around it is a linter, the linters stay as they are.
* `PluginExport.yields_wrappings_iff`: when a list yields the linters of its items however it is
  wrapped.
-/

namespace LintFront

/-! ## Documents without faults -/

namespace Tree

/-- A document with nothing in it that stops a reader of values. -/
def Faultless (t : Tree) : Prop := ∃ v, t.toValue = .ok v

theorem exists_itemValues_iff {items : List Tree} :
    (∃ values, itemValues items = .ok values) ↔ ∀ t ∈ items, t.Faultless := by
  induction items with
  | nil => exact ⟨fun _ _ ht => absurd ht List.not_mem_nil, fun _ => ⟨[], rfl⟩⟩
  | cons t rest ih =>
    rw [List.forall_mem_cons, ← ih]
    constructor
    · rintro ⟨_, h⟩
      obtain ⟨v, hv, h⟩ := bind_eq_ok_iff.mp h
      obtain ⟨values, hvalues, -⟩ := bind_eq_ok_iff.mp h
      exact ⟨⟨v, hv⟩, values, hvalues⟩
    · rintro ⟨⟨v, hv⟩, values, hvalues⟩
      exact ⟨v :: values, bind_eq_ok_iff.mpr ⟨v, hv, bind_eq_ok_iff.mpr ⟨values, hvalues, rfl⟩⟩⟩

theorem faultless_list_iff {items : List Tree} :
    (list items none).Faultless ↔ ∀ t ∈ items, t.Faultless := by
  rw [← exists_itemValues_iff]
  constructor
  · rintro ⟨_, h⟩
    obtain ⟨values, hvalues, -⟩ := bind_eq_ok_iff.mp h
    exact ⟨values, hvalues⟩
  · rintro ⟨values, hvalues⟩
    exact ⟨.list values, bind_eq_ok_iff.mpr ⟨values, hvalues, rfl⟩⟩

/-- An object with one member. -/
def within (name : String) (t : Tree) : Tree := .object [(.ok name, t)] none

theorem faultless_within_iff {t : Tree} {name : String} :
    (t.within name).Faultless ↔ t.Faultless := by
  constructor
  · rintro ⟨_, h⟩
    obtain ⟨_, h, -⟩ := bind_eq_ok_iff.mp h
    obtain ⟨_, -, h⟩ := bind_eq_ok_iff.mp h
    obtain ⟨v, hv, -⟩ := bind_eq_ok_iff.mp h
    exact ⟨v, hv⟩
  · rintro ⟨v, hv⟩
    have hmembers : memberValues [] [(.ok name, t)] = .ok [(name, v)] :=
      bind_eq_ok_iff.mpr ⟨name, rfl, bind_eq_ok_iff.mpr ⟨v, hv, rfl⟩⟩
    exact ⟨.object [(name, v)], bind_eq_ok_iff.mpr ⟨_, hmembers, rfl⟩⟩

end Tree

/-! ## Linters that are written as lists -/

namespace LinterDescriptor

/-- A list is a linter if it has the fields of one at their places. A field that the list does not
reach is as one that is null, so that only the id has to be there. -/
theorem read_list_eq_ok_iff {items : List Tree} {l : LinterDescriptor} :
    read .value (.list items none) = .ok l ↔
      items.length ≤ 4 ∧
      readText "a string" .value (items.getD 0 .null) = .ok l.id ∧
      readOptional (readText "a string") .value (items.getD 1 .null) = .ok l.description ∧
      readOptional IssueCatalog.read .value (items.getD 2 .null) = .ok l.catalog ∧
      readOptional (readText "a string") .value (items.getD 3 .null) = .ok l.source := by
  obtain ⟨id, description, catalog, source⟩ := l
  have hdescription : (default : LinterDescriptor).description = none := rfl
  have hcatalog : (default : LinterDescriptor).catalog = none := rfl
  have hsource : (default : LinterDescriptor).source = none := rfl
  have hid : ∀ s, readText "a string" .value .null ≠ .ok s := Tree.mismatch_ne_ok _ _ _
  have hnone : ∀ {α : Type} (read : Reader α), readOptional read .value .null = .ok none :=
    fun _ => rfl
  rcases items with _ | ⟨t₀, _ | ⟨t₁, _ | ⟨t₂, _ | ⟨t₃, _ | ⟨t₄, rest⟩⟩⟩⟩⟩ <;>
    simp [read, readRecord, fields, readPositions, Field.demanded, Field.omittable,
      bind_eq_ok_iff, Read.unless, pure, Except.pure, hdescription, hcatalog, hsource, hid, hnone]

/-- An object whose one member is no field of a linter has no id. -/
theorem read_within_ne_ok {name : String} (hname : fields.find? (·.isNamed name) = none) (t : Tree)
    (l : LinterDescriptor) : read .value (t.within name) ≠ .ok l := by
  intro h
  obtain ⟨⟨seen, record⟩, hread, h⟩ := bind_eq_ok_iff.mp h
  obtain ⟨_, hn, hread⟩ := bind_eq_ok_iff.mp hread
  cases hn
  rw [hname] at hread
  cases hread
  cases h

end LinterDescriptor

namespace PluginExport

/-! ## Linters of documents -/

/-- A document that is a linter as it stands. -/
def IsLinter (t : Tree) : Prop := ∃ l, LinterDescriptor.read .value t = .ok l

/-- The linters of items in order. -/
def lintersOf (items : List Tree) : List LinterDescriptor :=
  items.flatMap fun t => (ofTree t).flatten

theorem flattenItems_ofItems (items : List Tree) :
    flattenItems (ofItems items) = lintersOf items := by
  induction items with
  | nil => rfl
  | cons t rest ih => rw [ofItems, flattenItems, ih, lintersOf, lintersOf, List.flatMap_cons]

theorem flatten_of_read {items : List Tree} {stop : Option ReadFault} {l : LinterDescriptor}
    (h : LinterDescriptor.read .value (.list items stop) = .ok l) :
    (ofTree (.list items stop)).flatten = [l] := by
  rw [ofTree, linterOr, h, flatten]

theorem flatten_of_not_isLinter {items : List Tree} {stop : Option ReadFault}
    (h : ¬ IsLinter (.list items stop)) :
    (ofTree (.list items stop)).flatten = lintersOf items := by
  rw [ofTree, linterOr]
  split
  · rename_i l hl
    exact absurd ⟨l, hl⟩ h
  · exact flattenItems_ofItems items

theorem ofTree_within {name : String}
    (hname : LinterDescriptor.fields.find? (·.isNamed name) = none) (t : Tree) :
    ofTree (t.within name) = (ofMembers [(.ok name, t)]).toExport := by
  rw [Tree.within, ofTree, linterOr]
  split
  · rename_i l hl
    exact absurd hl (LinterDescriptor.read_within_ne_ok hname t l)
  · rfl

/-- Under `linters` a list is not read as a linter. -/
theorem flatten_within_linters (items : List Tree) (stop : Option ReadFault) :
    (ofTree ((Tree.list items stop).within "linters")).flatten = lintersOf items := by
  rw [ofTree_within (by rfl)]
  exact flattenItems_ofItems items

theorem flatten_within_default (t : Tree) :
    (ofTree (t.within "default")).flatten = (ofTree t).flatten := by
  rw [ofTree_within (by rfl)]
  cases t <;> rfl

/-- The document yields the linters when it is read as an export. -/
def Yields (dialect : Dialect) (t : Tree) (linters : List LinterDescriptor) : Prop :=
  ∃ e, read dialect t = .ok e ∧ e.flatten = linters

/-- The documents yield the linters when they are read one by one. -/
def YieldsAll (dialect : Dialect) (items : List Tree) (linters : List LinterDescriptor) : Prop :=
  ∃ parts, List.Forall₂ (Yields dialect) items parts ∧ parts.flatten = linters

variable {dialect : Dialect}

theorem yields_iff {t : Tree} {linters : List LinterDescriptor} :
    Yields dialect t linters ↔ t.Faultless ∧ (ofTree t).flatten = linters := by
  constructor
  · rintro ⟨e, he, rfl⟩
    obtain ⟨v, hv, he⟩ := bind_eq_ok_iff.mp he
    cases he
    exact ⟨⟨v, hv⟩, rfl⟩
  · rintro ⟨⟨v, hv⟩, rfl⟩
    exact ⟨ofTree t, bind_eq_ok_iff.mpr ⟨v, hv, rfl⟩, rfl⟩

theorem yieldsAll_iff {items : List Tree} (h : ∀ t ∈ items, t.Faultless)
    {linters : List LinterDescriptor} :
    YieldsAll dialect items linters ↔ linters = lintersOf items := by
  constructor
  · rintro ⟨parts, hparts, rfl⟩
    induction hparts with
    | nil => rfl
    | @cons t part items parts ht _ ih =>
      rw [List.flatten_cons, ih (List.forall_mem_cons.mp h).2, ← (yields_iff.mp ht).2, lintersOf,
        lintersOf, List.flatMap_cons]
  · rintro rfl
    refine ⟨items.map fun t => (ofTree t).flatten, ?_, (List.flatMap_def ..).symm⟩
    rw [List.forall₂_map_right_iff, List.forall₂_same]
    exact fun t ht => yields_iff.mpr ⟨h t ht, rfl⟩

theorem yields_within_default_iff {t : Tree} {linters : List LinterDescriptor} :
    Yields dialect (t.within "default") linters ↔ Yields dialect t linters := by
  rw [yields_iff, yields_iff, Tree.faultless_within_iff, flatten_within_default]

theorem yields_defaults_iff {t : Tree} {linters : List LinterDescriptor} (n : ℕ) :
    Yields dialect ((Tree.within "default")^[n] t) linters ↔ Yields dialect t linters := by
  induction n with
  | zero => rfl
  | succ n ih => rw [Function.iterate_succ_apply', yields_within_default_iff, ih]

/-! ## Wrapping a part of a document -/

/-- Some part of the document is wrapped. No list around it is a linter, before or after, unless it
stands under `linters`. -/
inductive Rewraps : Tree → Tree → Prop
  | inLinters {items : List Tree} (h : ¬ IsLinter (.list items none)) :
      Rewraps (.list items none) ((Tree.list items none).within "linters")
  | inDefault (t : Tree) : Rewraps t (t.within "default")
  | item {before after : List Tree} {t t' : Tree} (ht : Rewraps t t')
      (h : ¬ IsLinter (.list (before ++ t :: after) none))
      (h' : ¬ IsLinter (.list (before ++ t' :: after) none)) :
      Rewraps (.list (before ++ t :: after) none) (.list (before ++ t' :: after) none)
  | ofLinters {before after : List Tree} {t t' : Tree} (ht : Rewraps t t') :
      Rewraps ((Tree.list (before ++ t :: after) none).within "linters")
        ((Tree.list (before ++ t' :: after) none).within "linters")
  | ofDefault {t t' : Tree} (ht : Rewraps t t') :
      Rewraps (t.within "default") (t'.within "default")

theorem lintersOf_congr {before after : List Tree} {t t' : Tree}
    (h : (ofTree t).flatten = (ofTree t').flatten) :
    lintersOf (before ++ t :: after) = lintersOf (before ++ t' :: after) := by
  simp only [lintersOf, List.flatMap_append, List.flatMap_cons, h]

namespace Rewraps

theorem flatten_eq {t t' : Tree} (h : Rewraps t t') :
    (ofTree t).flatten = (ofTree t').flatten := by
  induction h with
  | inLinters h => rw [flatten_of_not_isLinter h, flatten_within_linters]
  | inDefault t => rw [flatten_within_default]
  | item _ h h' ih =>
    rw [flatten_of_not_isLinter h, flatten_of_not_isLinter h', lintersOf_congr ih]
  | ofLinters _ ih => rw [flatten_within_linters, flatten_within_linters, lintersOf_congr ih]
  | ofDefault _ ih => rw [flatten_within_default, flatten_within_default, ih]

theorem faultless_iff {t t' : Tree} (h : Rewraps t t') : t.Faultless ↔ t'.Faultless := by
  induction h with
  | inLinters _ => rw [Tree.faultless_within_iff]
  | inDefault t => rw [Tree.faultless_within_iff]
  | item _ _ _ ih =>
    simp only [Tree.faultless_list_iff, List.forall_mem_append, List.forall_mem_cons, ih]
  | ofLinters _ ih =>
    simp only [Tree.faultless_within_iff, Tree.faultless_list_iff, List.forall_mem_append,
      List.forall_mem_cons, ih]
  | ofDefault _ ih => rw [Tree.faultless_within_iff, Tree.faultless_within_iff, ih]

end Rewraps

/-- However often parts of a document are wrapped and unwrapped, it yields the same linters. -/
theorem yields_iff_of_rewraps {t t' : Tree} (h : Relation.EqvGen Rewraps t t')
    {linters : List LinterDescriptor} : Yields dialect t linters ↔ Yields dialect t' linters := by
  induction h with
  | rel t t' h => rw [yields_iff, yields_iff, h.faultless_iff, h.flatten_eq]
  | refl t => rfl
  | symm t t' _ ih => exact ih.symm
  | trans t₁ t₂ t₃ _ _ ih ih' => exact ih.trans ih'

/-! ## Lists -/

/-- A document as it is, and wrapped in the three other ways. -/
def wrappings (t : Tree) : List Tree :=
  [t, t.within "linters", t.within "default", (t.within "linters").within "default"]

/-- Every list of faultless documents can be read in all four ways, behind any number of defaults.
Under `linters` it yields the linters of its items in order. Elsewhere it yields these unless it is
a linter itself, which is then the only one. So the four ways agree with the items exactly if no
other linter is read in place of theirs. -/
theorem yields_wrappings_iff {items : List Tree} (h : ∀ t ∈ items, t.Faultless)
    (dialect : Dialect) :
    ∃ linters, (∀ found, YieldsAll dialect items found ↔ found = linters) ∧
      (∀ n, Yields dialect
        ((Tree.within "default")^[n] ((Tree.list items none).within "linters")) linters) ∧
      (∀ n, Yields dialect ((Tree.within "default")^[n] (.list items none))
        (match LinterDescriptor.read .value (.list items none) with
        | .ok l => [l]
        | .error _ => linters)) ∧
      ((∀ t ∈ wrappings (.list items none), Yields dialect t linters) ↔
        ∀ l, LinterDescriptor.read .value (.list items none) = .ok l → linters = [l]) := by
  have hlist : (Tree.list items none).Faultless := Tree.faultless_list_iff.mpr h
  have hcollection : Yields dialect ((Tree.list items none).within "linters") (lintersOf items) :=
    yields_iff.mpr ⟨Tree.faultless_within_iff.mpr hlist, flatten_within_linters items none⟩
  have hdirect : Yields dialect (.list items none)
      (match LinterDescriptor.read .value (.list items none) with
      | .ok l => [l]
      | .error _ => lintersOf items) := by
    refine yields_iff.mpr ⟨hlist, ?_⟩
    cases hread : LinterDescriptor.read .value (.list items none) with
    | ok l => exact flatten_of_read hread
    | error fault =>
      refine flatten_of_not_isLinter ?_
      rintro ⟨l, hl⟩
      rw [hread] at hl
      cases hl
  refine ⟨lintersOf items, fun _ => yieldsAll_iff h,
    fun n => (yields_defaults_iff n).mpr hcollection,
    fun n => (yields_defaults_iff n).mpr hdirect, ?_⟩
  simp only [wrappings, List.forall_mem_cons, List.not_mem_nil, false_imp_iff, implies_true,
    and_true, yields_within_default_iff, hcollection, true_and]
  rw [and_self_iff]
  constructor
  · intro hall l hl
    rw [← (yields_iff.mp hall).2, flatten_of_read hl]
  · intro hall
    refine yields_iff.mpr ⟨hlist, ?_⟩
    by_cases hlinter : IsLinter (.list items none)
    · obtain ⟨l, hl⟩ := hlinter
      rw [flatten_of_read hl, hall l hl]
    · exact flatten_of_not_isLinter hlinter

/-- A list of one text is a linter with that id, and the text alone is none. -/
theorem wrappings_differ :
    ¬ ∀ (items : List Tree) (linters : List LinterDescriptor), (∀ t ∈ items, t.Faultless) →
      YieldsAll .value items linters →
      ∀ t ∈ wrappings (.list items none), Yields .value t linters := by
  intro hall
  have hitem : (Tree.text (.ok "a")).Faultless := ⟨.text "a", rfl⟩
  have hnone : YieldsAll .value [.text (.ok "a")] [] :=
    ⟨[[]], .cons ⟨.unrecognized, rfl, rfl⟩ .nil, rfl⟩
  obtain ⟨e, he, hlinters⟩ := hall [.text (.ok "a")] [] (List.forall_mem_singleton.mpr hitem) hnone
    _ List.mem_cons_self
  cases he
  cases hlinters

/-- A linter, a list with a linter, and a text. -/
def mixedItems : List Tree :=
  [(Tree.text (.ok "a")).within "id", .list [(Tree.text (.ok "b")).within "id"] none,
    .text (.ok "c")]

theorem wrappings_agree_on_mixedItems :
    (∀ t ∈ mixedItems, t.Faultless) ∧
      ∃ linters, YieldsAll .value mixedItems linters ∧
        linters.map LinterDescriptor.id = ["a", "b"] ∧
        ∀ t ∈ wrappings (.list mixedItems none), Yields .value t linters := by
  have hitems : ∀ t ∈ mixedItems, t.Faultless := by
    simp only [mixedItems, List.forall_mem_cons, List.not_mem_nil, false_imp_iff, implies_true,
      and_true, Tree.faultless_list_iff, Tree.faultless_within_iff]
    exact ⟨⟨_, rfl⟩, ⟨_, rfl⟩, _, rfl⟩
  obtain ⟨linters, hfound, -, -, hiff⟩ := yields_wrappings_iff hitems .value
  have hlinters : lintersOf mixedItems = linters := (hfound _).mp ((yieldsAll_iff hitems).mpr rfl)
  refine ⟨hitems, linters, (hfound linters).mpr rfl, ?_, hiff.mpr ?_⟩
  · rw [← hlinters]
    rfl
  · intro l hl
    cases hl

end PluginExport

end LintFront
