import LintFront.Builder.Basic
import LintFront.Proofs.Written

/-!
# What a module builds, written and read

A module may spell what it builds in many ways: linters in any shape of export, records as lists of
their fields, several names for a severity, all of it behind a default export or not. What it has
built is written in one way only, and that way is read as the same linters, rules and grammars.

* `RulePredicate.Writable`, `BuilderConfig.Writable`: what can be written without loss.
* `BuilderConfig.restores_read`: it is read back.
* `BuilderConfig.writable_of_ofModule`: whatever is read from a module can be written so.
* `BuilderConfig.ofModule_toValue`: what a module builds is built again by its value, and by a
  module with that value as its default export.
-/

namespace LintFront

/-! ## Linters -/

theorem restores_readTexts (texts : List String) : readTexts.Restores texts (textsValue texts) :=
  Reader.restores_readList_map fun text _ => Reader.restores_readText "a string" text

theorem restores_someText (o : Option String) :
    ∀ text, o = some text →
      (readText "a string").Restores text (.text text) ∧ Value.text text ≠ .null :=
  fun text _ => ⟨Reader.restores_readText _ text, Value.noConfusion⟩

theorem Severity.restores_read (s : Severity) : Reader.Restores read s s.toValue := by
  cases s <;> exact ⟨rfl, rfl⟩

theorem IssueKind.restores_read (k : IssueKind) : Reader.Restores read k k.toValue := by
  refine Reader.restores_readRecord ?_ (by decide) (by decide) _
  rw [List.cons_append, List.cons_append, List.nil_append, ← List.append_nil (memberIf _ _ _)]
  refine .demanded (Reader.restores_readText _ k.id) _ ?_
  refine .demanded (Severity.restores_read k.severity) _ ?_
  exact .omittable (restores_someText k.description) _ rfl (.done k)

theorem IssueCatalog.restores_read (c : IssueCatalog) : Reader.Restores read c c.toValue := by
  have hkinds : (readList IssueKind.read).Restores c.kinds c.toValue :=
    Reader.restores_readList_map fun k _ => k.restores_read
  exact ⟨hkinds.settled, bind_eq_ok_iff.mpr ⟨c.kinds, hkinds.reads, rfl⟩⟩

theorem LinterDescriptor.restores_read (l : LinterDescriptor) :
    Reader.Restores read l l.toValue := by
  have hcatalog : ∀ catalog, l.catalog = some catalog →
      IssueCatalog.read.Restores catalog catalog.toValue ∧ catalog.toValue ≠ .null :=
    fun catalog _ => ⟨catalog.restores_read, Value.noConfusion⟩
  refine Reader.restores_readRecord ?_ (by decide) (by decide) _
  rw [List.append_assoc, List.append_assoc, List.singleton_append,
    ← List.append_nil (memberIf "source" _ _)]
  refine .demanded (Reader.restores_readText _ l.id) _ ?_
  refine .omittable (restores_someText l.description) _ rfl ?_
  refine .omittable hcatalog _ rfl ?_
  exact .omittable (restores_someText l.source) _ rfl (.done l)

/-- A linter that is written is the first shape of an export. -/
theorem PluginExport.restores_read (l : LinterDescriptor) :
    Reader.Restores read (.linter l) l.toValue := by
  have hlinter := l.restores_read
  refine ⟨hlinter.settled, bind_eq_ok_iff.mpr ⟨l.toValue, hlinter.settled, ?_⟩⟩
  have hshape : ofTree l.toValue.toTree = .linter l := by
    have hreads := hlinter.reads
    rw [LinterDescriptor.toValue, Value.toTree] at hreads ⊢
    rw [ofTree, linterOr, hreads]
  exact congrArg Except.ok hshape

/-! ## Rules and grammars -/

/-- The condition of a rule, if it has one, is not the value that stands for none. -/
def RulePredicate.Writable (r : RulePredicate) : Prop :=
  ∀ c, r.condition = some c → c.Settled ∧ c ≠ .null

theorem RulePredicate.restores_read {r : RulePredicate} (h : r.Writable) :
    Reader.Restores read r r.toValue := by
  have hcondition : ∀ c, r.condition = some c → readValue.Restores c c ∧ c ≠ .null :=
    fun c hc => ⟨Reader.restores_readValue (h c hc).1, (h c hc).2⟩
  have hseverity : ∀ s, r.severity = some s →
      Severity.read.Restores s s.toValue ∧ s.toValue ≠ .null :=
    fun s _ => ⟨s.restores_read, Value.noConfusion⟩
  have hkinds : r.kinds.isEmpty = true → r.kinds = [] := List.isEmpty_iff.mp
  refine Reader.restores_readRecord ?_ (by decide) (by decide) _
  rw [List.append_assoc, List.append_assoc, List.append_assoc, List.singleton_append,
    ← List.append_nil (memberIf "message" _ _)]
  refine .demanded (Reader.restores_readText _ r.id) _ ?_
  refine .defaulted_unless (restores_readTexts r.kinds) _ (fun h => by rw [hkinds h]; rfl) ?_
  refine .omittable hcondition _ rfl ?_
  refine .omittable hseverity _ rfl ?_
  exact .omittable (restores_someText r.message) _ rfl (.done r)

theorem Grammar.restores_read (g : Grammar) : Reader.Restores read g g.toValue := by
  refine Reader.restores_readRecord ?_ (by decide) (by decide) _
  refine .demanded (Reader.restores_readText _ g.moduleFile) _ ?_
  exact .defaulted (restores_readTexts g.extensions) _ (.done g)

theorem GrammarRegistry.restores_read {r : GrammarRegistry} (h : r.grammars.Distinct) :
    Reader.Restores read r r.toValue := by
  have htable : (readTable Grammar.read).Restores r.grammars r.toValue :=
    Reader.restores_readTable h fun entry _ => entry.2.restores_read
  exact ⟨htable.settled, bind_eq_ok_iff.mpr ⟨r.grammars, htable.reads, rfl⟩⟩

/-! ## Whole builders -/

namespace BuilderConfig

/-- What can be written without loss. -/
structure Writable (b : BuilderConfig) : Prop where
  rules : ∀ r ∈ b.rules, r.Writable
  grammars : b.grammars.grammars.Distinct

theorem restores_readLinters (linters : List LinterDescriptor) :
    Reader.Restores readLinters linters (lintersValue linters) := by
  have hexports : (readList PluginExport.read).Restores (linters.map .linter)
      (lintersValue linters) :=
    Reader.restores_readList <| List.forall₂_map_left_iff.mpr <| List.forall₂_map_right_iff.mpr <|
      List.forall₂_same.mpr fun l _ => PluginExport.restores_read l
  have hflat : (linters.map PluginExport.linter).flatMap PluginExport.flatten = linters := by
    rw [List.flatMap_map]
    exact List.flatMap_singleton' linters
  refine ⟨hexports.settled, bind_eq_ok_iff.mpr ⟨_, hexports.reads, ?_⟩⟩
  exact congrArg Except.ok hflat

theorem restores_read {b : BuilderConfig} (h : b.Writable) : Reader.Restores read b b.toValue := by
  have hrules : (readList RulePredicate.read).Restores b.rules
      (.list (b.rules.map RulePredicate.toValue)) :=
    Reader.restores_readList_map fun r hr => RulePredicate.restores_read (h.rules r hr)
  refine Reader.restores_readRecord ?_ (by decide) (by decide) _
  refine .defaulted (restores_readLinters b.linters) _ ?_
  refine .defaulted hrules _ ?_
  exact .defaulted (GrammarRegistry.restores_read h.grammars) _ (.done b)

end BuilderConfig

/-! ## What is read from values -/

/-- A tree that a value is read from. -/
def Tree.OfValue (t : Tree) : Prop := ∃ v : Value, v.Settled ∧ t = v.toTree

theorem Value.exists_of_mem_parts {v : Value} {part : Tree} (h : part ∈ v.toTree.parts) :
    ∃ w : Value, part = w.toTree ∧
      (v.Settled → w.Settled) := by
  have hitems : ∀ items : List Value, part ∈ itemTrees items → ∃ w ∈ items, part = w.toTree := by
    intro items
    induction items with
    | nil => exact fun h => absurd h List.not_mem_nil
    | cons w rest ih =>
      intro h
      rcases List.mem_cons.mp h with rfl | h
      · exact ⟨w, List.mem_cons_self, rfl⟩
      · obtain ⟨w, hw, heq⟩ := ih h
        exact ⟨w, List.mem_cons_of_mem _ hw, heq⟩
  have hmembers : ∀ members : Table Value, part ∈ (memberTrees members).map Prod.snd →
      ∃ entry ∈ members, part = entry.2.toTree := by
    intro members
    induction members with
    | nil => exact fun h => absurd h List.not_mem_nil
    | cons entry rest ih =>
      intro h
      rcases List.mem_cons.mp h with rfl | h
      · exact ⟨entry, List.mem_cons_self, rfl⟩
      · obtain ⟨entry, hentry, heq⟩ := ih h
        exact ⟨entry, List.mem_cons_of_mem _ hentry, heq⟩
  cases v with
  | list items =>
    obtain ⟨w, hw, rfl⟩ := hitems items h
    exact ⟨w, rfl, fun hv => settled_list_iff.mp hv w hw⟩
  | object members =>
    obtain ⟨entry, hentry, rfl⟩ := hmembers members h
    exact ⟨entry.2, rfl, fun hv => (settled_object_iff.mp hv).2 entry hentry⟩
  | _ => exact absurd h List.not_mem_nil

theorem Tree.OfValue.parts {t : Tree} (h : t.OfValue) : ∀ part ∈ t.parts, part.OfValue := by
  obtain ⟨v, hv, rfl⟩ := h
  intro part hpart
  obtain ⟨w, rfl, hw⟩ := Value.exists_of_mem_parts hpart
  exact ⟨w, hw hv, rfl⟩

/-- A value that is there is no null, and is read as it is. -/
theorem ensuresOn_readOptional_readValue :
    Reader.EnsuresOn Tree.OfValue (readOptional readValue)
      fun o => ∀ c, o = some c → c.Settled ∧ c ≠ .null := by
  rintro dialect t o ⟨v, hv, rfl⟩ ho c rfl
  have hnull : v ≠ .null := by
    rintro rfl
    cases ho
  have hread : readValue dialect v.toTree = .ok v := hv
  rw [Reader.readOptional_toTree dialect hnull, hread] at ho
  cases ho
  exact ⟨hv, hnull⟩

theorem RulePredicate.writable_of_read : Reader.EnsuresOn Tree.OfValue read Writable := by
  have hstart : Writable default := fun c hc => nomatch hc
  refine Reader.ensuresOn_readRecord (fun _ => Tree.OfValue.parts) hstart ?_
  simp only [fields, List.forall_mem_cons, List.not_mem_nil, false_imp_iff, implies_true, and_true]
  refine ⟨?_, ?_, ?_, ?_, ?_⟩
  · exact Field.keepsOn_any rfl fun r _ hr => hr
  · exact Field.keepsOn_any rfl fun r _ hr => hr
  · exact Field.keepsOn rfl ensuresOn_readOptional_readValue fun _ _ _ ho => ho
  · exact Field.keepsOn_any rfl fun r _ hr => hr
  · exact Field.keepsOn_any rfl fun r _ hr => hr

namespace BuilderConfig

theorem writable_of_read : Reader.EnsuresOn Tree.OfValue read Writable := by
  have hrules := Reader.ensuresOn_readList (fun _ => Tree.OfValue.parts)
    RulePredicate.writable_of_read
  have hgrammars : Reader.EnsuresOn Tree.OfValue GrammarRegistry.read
      fun r => r.grammars.Distinct := by
    intro dialect t r _ hr
    obtain ⟨table, htable, hr⟩ := bind_eq_ok_iff.mp hr
    cases hr
    have hdistinct := Reader.ensures_readTable (fun _ _ _ _ => trivial) dialect t table htable
    exact hdistinct.1
  have hstart : Writable {} := ⟨fun r hr => absurd hr List.not_mem_nil, Table.distinct_nil⟩
  refine Reader.ensuresOn_readRecord (fun _ => Tree.OfValue.parts) hstart ?_
  simp only [fields, List.forall_mem_cons, List.not_mem_nil, false_imp_iff, implies_true, and_true]
  refine ⟨?_, ?_, ?_⟩
  · exact Field.keepsOn_any rfl fun b _ hb => ⟨hb.rules, hb.grammars⟩
  · exact Field.keepsOn rfl hrules fun b rules hb hrules => ⟨hrules, hb.grammars⟩
  · exact Field.keepsOn rfl hgrammars fun b grammars hb hgrammars => ⟨hb.rules, hgrammars⟩

theorem settled_moduleBody {v : Value} (h : v.Settled) : (moduleBody v).Settled := by
  unfold moduleBody
  split
  · rename_i body _ hbody
    cases v with
    | object members =>
      exact (Value.settled_object_iff.mp h).2 _ (Table.mem_of_find? hbody)
    | _ => cases hbody
  · exact h

/-- What a module builds is built again by its value, and by a module with that value as its default
export. -/
theorem ofModule_toValue {v : Value} (hv : v.Settled) {b : BuilderConfig}
    (h : ofModule v = .ok b) :
    ofModule b.toValue = .ok b ∧ ofModule (.object [("default", b.toValue)]) = .ok b := by
  have hwritable : b.Writable := writable_of_read .value _ b ⟨_, settled_moduleBody hv, rfl⟩ h
  have hread : read .value b.toValue.toTree = .ok b := (restores_read hwritable).reads
  exact ⟨hread, hread⟩

/-- The default export of a module, with linters in three shapes of an export and something that is
none, records that are lists of their fields, severities under two names, and nulls. -/
def manyShapes : Value :=
  .object [("other", .null), ("default", .object [
    ("grammars", .object [("ts", .list [.text "grammar-ts"]),
      ("js", .object [("module", .text "grammar-js"), ("extensions", .list [.text ".js"])])]),
    ("linters", .list [
      .object [("id", .text "plain"), ("catalog", .list [
        .list [.text "plain/long", .object [("warning", .null)]]])],
      .list [.list [.text "listed", .null, .list [], .text "./listed.ts"], .text "no linter"],
      .object [("default", .object [("linters", .list [.object [("id", .text "nested")]])])]]),
    ("rules", .list [
      .list [.text "first", .list [.text "plain/long"], .object [("depth", .number (.integer 2))]],
      .object [("id", .text "second"), ("when", .null), ("severity", .text "warning")]])])]

theorem ofModule_toValue_manyShapes :
    manyShapes.Settled ∧ ∃ b, ofModule manyShapes = .ok b ∧
      b.linters.map (·.id) = ["plain", "listed", "nested"] ∧
      b.rules.map (·.id) = ["first", "second"] ∧ b.grammars.grammars.names = ["ts", "js"] ∧
      ofModule b.toValue = .ok b ∧
      ofModule (.object [("default", b.toValue)]) = .ok b := by
  have hsettled : manyShapes.Settled := rfl
  have hpasses : passes (fun b => b.linters.map (·.id) == ["plain", "listed", "nested"] &&
      b.rules.map (·.id) == ["first", "second"] && b.grammars.grammars.names == ["ts", "js"])
      (ofModule manyShapes) = true := by decide +kernel
  obtain ⟨b, hb, hchecks⟩ := exists_of_passes hpasses
  simp only [Bool.and_eq_true, beq_iff_eq] at hchecks
  obtain ⟨⟨hlinters, hrules⟩, hgrammars⟩ := hchecks
  obtain ⟨hagain, hwrapped⟩ := ofModule_toValue hsettled hb
  exact ⟨hsettled, b, hb, hlinters, hrules, hgrammars, hagain, hwrapped⟩

end BuilderConfig

end LintFront
