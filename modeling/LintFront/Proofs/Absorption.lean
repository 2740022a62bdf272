import LintFront.Proofs.Layers
import Mathlib.Data.List.Induction

/-!
# Layers that come twice

What a configuration has once taken in changes nothing when it comes again, whatever was brought in
between. So a layer counts at its first place only.

* `Absorptive`: an operation whose left operand keeps absorbing what it has absorbed.
* `Table.mergeWith_eq_left_iff`: when a table brought into another one changes nothing.
* `Absorptive.foldl`: each operand of a fold is absorbed by its outcome.
* `Configuration.mergeAll_absorbs`: a layer merged once more, and the layers without repeats.
-/

namespace LintFront

/-- An operation on the values with `P` whose left operand keeps absorbing what it has absorbed. -/
structure Absorptive {α : Type} (P : α → Prop) (f : α → α → α) : Prop where
  closed : ∀ a b, P a → P b → P (f a b)
  self : ∀ a, P a → f a a = a
  again : ∀ a b, P a → P b → f (f a b) b = f a b
  stays : ∀ a b c, P a → P b → P c → f a b = a → f (f a c) b = f a c

/-- Each operand of a fold is absorbed by its outcome. -/
theorem Absorptive.foldl {α : Type} {P : α → Prop} {f : α → α → α} (hf : Absorptive P f) {e : α}
    (he : P e) {list : List α} (hlist : ∀ a ∈ list, P a) :
    P (list.foldl f e) ∧ ∀ a ∈ list, f (list.foldl f e) a = list.foldl f e := by
  induction list using List.reverseRecOn with
  | nil => exact ⟨he, by simp⟩
  | append_singleton list last ih =>
    obtain ⟨hfold, habsorbs⟩ := ih fun a ha => hlist a (List.mem_append_left _ ha)
    have hlast : P last := hlist last (by simp)
    rw [List.foldl_append, List.foldl_cons, List.foldl_nil]
    refine ⟨hf.closed _ _ hfold hlast, fun a ha => ?_⟩
    rcases List.mem_append.mp ha with hmem | hmem
    · exact hf.stays _ a last hfold (hlist a ha) hlast (habsorbs a hmem)
    · obtain rfl := List.mem_singleton.mp hmem
      exact hf.again _ a hfold hlast

/-! ## Single settings and lists -/

theorem absorptive_or {α : Type} : Absorptive (fun _ : Option α => True) Option.or where
  closed := by simp
  self := by simp
  again a b _ _ := by cases a <;> simp
  stays a b c _ _ _ h := by cases a <;> simp_all

theorem absorptive_keepFirst {α : Type} : Absorptive (fun _ : α => True) keepFirst where
  closed := by simp
  self _ _ := rfl
  again _ _ _ _ := rfl
  stays _ _ _ _ _ _ _ := rfl

theorem union_eq_left_iff {a b : List String} : union a b = a ↔ ∀ entry ∈ b, entry ∈ a := by
  constructor
  · intro h entry hentry
    rw [← h]
    exact mem_union.mpr (Or.inr hentry)
  · intro h
    have hnew : b.removeAll a = [] := by
      simpa [List.removeAll, List.filter_eq_nil_iff] using h
    rw [union_eq_append, hnew, List.eraseDups_nil, List.append_nil]

theorem absorptive_unionOption :
    Absorptive (fun _ : Option (List String) => True) unionOption where
  closed := by simp
  self a _ := by
    cases a with
    | none => rfl
    | some a => exact congrArg some (union_eq_left_iff.mpr fun _ h => h)
  again a b _ _ := by
    cases b with
    | none => rfl
    | some b => exact congrArg some (union_eq_left_iff.mpr fun _ h => mem_union.mpr (Or.inr h))
  stays a b c _ _ _ h := by
    cases b with
    | none => rfl
    | some b =>
      cases c with
      | none => exact h
      | some c =>
        have ha : union (a.getD []) b = a.getD [] := congrArg (Option.getD · []) h
        refine congrArg some (union_eq_left_iff.mpr fun entry hentry => ?_)
        exact mem_union.mpr (Or.inl (union_eq_left_iff.mp ha entry hentry))

/-! ## Tables -/

namespace Table

variable {α : Type} {f : α → α → α} {t u s : Table α}

/-- A table brought into another one changes nothing if and only if each of its names is there and
stands for a value that absorbs its own. -/
theorem mergeWith_eq_left_iff (ht : t.Distinct) (hs : s.Distinct) :
    mergeWith f t s = t ↔
      ∀ name b, find? s name = some b → ∃ a, find? t name = some a ∧ f a b = a := by
  constructor
  · intro h name b hb
    have hfind := find?_mergeWith f t hs name
    rw [h, hb] at hfind
    cases ha : find? t name with
    | none => simp [ha] at hfind
    | some a => exact ⟨a, rfl, by simpa [ha, eq_comm] using hfind⟩
  · intro h
    refine ext_find (ht.mergeWith f s) ?_ fun name => ?_
    · rw [names_mergeWith, union_eq_left_iff]
      intro name hname
      obtain ⟨b, hb⟩ := Option.isSome_iff_exists.mp (find?_isSome_iff.mpr hname)
      obtain ⟨a, ha, -⟩ := h name b hb
      exact find?_isSome_iff.mp (by rw [ha]; rfl)
    · rw [find?_mergeWith f t hs]
      cases hb : find? s name with
      | none => simp
      | some b =>
        obtain ⟨a, ha, hab⟩ := h name b hb
        simp [ha, hab]

theorem mergeWith_self (ht : t.Distinct) (h : ∀ name a, find? t name = some a → f a a = a) :
    mergeWith f t t = t := by
  apply (mergeWith_eq_left_iff ht ht).mpr
  intro name a ha
  exact ⟨a, ha, h name a ha⟩

/-- A table that comes again meets its own values at the names that were new, and joined values at
the others. -/
theorem mergeWith_again (ht : t.Distinct) (hs : s.Distinct)
    (hself : ∀ name b, find? s name = some b → f b b = b)
    (hagain : ∀ name a b, find? t name = some a → find? s name = some b →
      f (f a b) b = f a b) :
    mergeWith f (mergeWith f t s) s = mergeWith f t s := by
  apply (mergeWith_eq_left_iff (ht.mergeWith f s) hs).mpr
  intro name b hb
  rw [find?_mergeWith f t hs, hb]
  cases ha : find? t name with
  | none => exact ⟨b, by simp, hself name b hb⟩
  | some a => exact ⟨f a b, by simp, hagain name a b ha hb⟩

theorem mergeWith_stays (ht : t.Distinct) (hs : s.Distinct) (hu : u.Distinct)
    (habsorbs : mergeWith f t s = t)
    (h : ∀ name a b c, find? t name = some a → find? s name = some b → find? u name = some c →
      f a b = a → f (f a c) b = f a c) :
    mergeWith f (mergeWith f t u) s = mergeWith f t u := by
  apply (mergeWith_eq_left_iff (ht.mergeWith f u) hs).mpr
  intro name b hb
  obtain ⟨a, ha, hab⟩ := (mergeWith_eq_left_iff ht hs).mp habsorbs name b hb
  rw [find?_mergeWith f t hu, ha]
  cases hc : find? u name with
  | none => exact ⟨a, by simp, hab⟩
  | some c => exact ⟨f a c, by simp, h name a b c ha hb hc hab⟩

/-- An optional table that holds each name once, and only values with `P`. -/
def Holds (P : α → Prop) (t : Option (Table α)) : Prop :=
  ∀ a, t = some a → a.Distinct ∧ ∀ entry ∈ a, P entry.2

theorem Holds.find {P : α → Prop} (h : Holds P (some t)) {name : String} {a : α}
    (ha : find? t name = some a) : P a := (h t rfl).2 _ (mem_of_find? ha)

theorem Holds.getD {P : α → Prop} {t : Option (Table α)} (h : Holds P t) :
    Holds P (some (t.getD [])) := by
  rintro _ ⟨⟩
  cases t with
  | none => exact ⟨distinct_nil, by simp⟩
  | some a => exact h a rfl

theorem absorptive_mergeTables {P : α → Prop} (hf : Absorptive P f) :
    Absorptive (Holds P) (mergeTables f) where
  closed _ _ ht hu := mergeTables_keeps ht hu hf.closed rfl
  self t ht := by
    cases t with
    | none => rfl
    | some a =>
      exact congrArg some (mergeWith_self (ht a rfl).1 fun _ b hb => hf.self b (ht.find hb))
  again t u ht hu := by
    cases u with
    | none => rfl
    | some b =>
      refine congrArg some (mergeWith_again (ht.getD _ rfl).1 (hu b rfl).1 ?_ ?_)
      · intro name y hy
        exact hf.self y (hu.find hy)
      · intro name x y hx hy
        exact hf.again x y (ht.getD.find hx) (hu.find hy)
  stays t u v ht hu hv h := by
    cases u with
    | none => rfl
    | some b =>
      cases v with
      | none => exact h
      | some c =>
        have ha : mergeWith f (t.getD []) b = t.getD [] := congrArg (Option.getD · []) h
        refine congrArg some (mergeWith_stays (ht.getD _ rfl).1 (hu b rfl).1 (hv c rfl).1 ha ?_)
        intro name x y z hx hy hz
        exact hf.stays x y z (ht.getD.find hx) (hu.find hy) (hv.find hz)

end Table

/-! ## Values -/

namespace Value

theorem merge_self {v : Value} (hv : v.WellFormed) : v.merge v = v := by
  induction v using members_induction with
  | step v ih =>
    cases hvm : v.members? with
    | none => exact merge_of_left hvm v
    | some members =>
      obtain rfl := eq_object_of_members? hvm
      rw [merge_object, Table.mergeWith_self (hv.distinct hvm)]
      intro name a ha
      exact ih members name a hvm ha (hv.of_find? hvm ha)

theorem merge_again {v w : Value} (hv : v.WellFormed) (hw : w.WellFormed) :
    (v.merge w).merge w = v.merge w := by
  induction v using members_induction generalizing w with
  | step v ih =>
    cases hvm : v.members? with
    | none => rw [merge_of_left hvm, merge_of_left hvm]
    | some members =>
      cases hwm : w.members? with
      | none => exact merge_of_right _ hwm
      | some source =>
        obtain rfl := eq_object_of_members? hvm
        obtain rfl := eq_object_of_members? hwm
        rw [merge_object, merge_object, Table.mergeWith_again (hv.distinct hvm) (hw.distinct hwm)]
        · intro name b hb
          exact merge_self (hw.of_find? hwm hb)
        · intro name a b ha hb
          exact ih members name a hvm ha (hv.of_find? hvm ha) (hw.of_find? hwm hb)

/-- What a value has absorbed it absorbs again after another one has come in. A member that came in
with that other one is blocked no more than it was. -/
theorem merge_stays {v w x : Value} (hv : v.WellFormed) (hw : w.WellFormed) (hx : x.WellFormed)
    (h : v.merge w = v) : (v.merge x).merge w = v.merge x := by
  induction v using members_induction generalizing w x with
  | step v ih =>
    cases hvm : v.members? with
    | none => rw [merge_of_left hvm, h]
    | some members =>
      cases hwm : w.members? with
      | none => exact merge_of_right _ hwm
      | some source =>
        cases hxm : x.members? with
        | none => rw [merge_of_right _ hxm, h]
        | some other =>
          obtain rfl := eq_object_of_members? hvm
          obtain rfl := eq_object_of_members? hwm
          obtain rfl := eq_object_of_members? hxm
          rw [merge_object] at h
          rw [merge_object, merge_object, Table.mergeWith_stays (hv.distinct hvm)
            (hw.distinct hwm) (hx.distinct hxm) (object.inj h)]
          intro name a b c ha hb hc hab
          exact ih members name a hvm ha (hv.of_find? hvm ha) (hw.of_find? hwm hb)
            (hx.of_find? hxm hc) hab

theorem absorptive_merge : Absorptive WellFormed merge where
  closed _ _ := WellFormed.merge
  self _ := merge_self
  again _ _ := merge_again
  stays _ _ _ := merge_stays

end Value

/-! ## Overrides and configurations -/

theorem holds_severity {t : Option (Table Severity)} (h : ∀ a, t = some a → a.Distinct) :
    Table.Holds (fun _ => True) t := fun a ha => ⟨h a ha, by simp⟩

theorem holds_options {t : Option (Table Value)}
    (h : ∀ a, t = some a → (Value.object a).WellFormed) :
    Table.Holds Value.WellFormed t := fun a ha => Value.wellFormed_object_iff.mp (h a ha)

theorem absorptive_mergeSeverity :
    Absorptive (Table.Holds fun _ => True) (mergeTables (keepFirst (α := Severity))) :=
  Table.absorptive_mergeTables absorptive_keepFirst

theorem absorptive_mergeOptions :
    Absorptive (Table.Holds Value.WellFormed) (mergeTables Value.merge) :=
  Table.absorptive_mergeTables Value.absorptive_merge

theorem ScopeOverride.absorptive_merge : Absorptive WellFormed merge where
  closed _ _ := WellFormed.merge
  self s hs := by
    have hskip := absorptive_unionOption.self s.skip trivial
    have hseverity := absorptive_mergeSeverity.self _ (holds_severity hs.severity)
    have hoptions := absorptive_mergeOptions.self _ (holds_options hs.linterConfig)
    simp only [merge, hskip, hseverity, hoptions]
  again s t hs ht := by
    have hskip := absorptive_unionOption.again s.skip t.skip trivial trivial
    have hseverity := absorptive_mergeSeverity.again _ _ (holds_severity hs.severity)
      (holds_severity ht.severity)
    have hoptions := absorptive_mergeOptions.again _ _ (holds_options hs.linterConfig)
      (holds_options ht.linterConfig)
    simp only [merge, hskip, hseverity, hoptions]
  stays s t u hs ht hu h := by
    have hskip := absorptive_unionOption.stays s.skip t.skip u.skip trivial trivial trivial
      (congrArg skip h)
    have hseverity := absorptive_mergeSeverity.stays _ _ _ (holds_severity hs.severity)
      (holds_severity ht.severity) (holds_severity hu.severity) (congrArg severity h)
    have hoptions := absorptive_mergeOptions.stays _ _ _ (holds_options hs.linterConfig)
      (holds_options ht.linterConfig) (holds_options hu.linterConfig) (congrArg linterConfig h)
    simp only [merge, hskip, hseverity, hoptions]

namespace Configuration

theorem WellFormed.holds_scopes {c : Configuration} (h : c.WellFormed) :
    Table.Holds ScopeOverride.WellFormed c.scopes := fun t ht => ⟨h.scopes t ht, h.scope t ht⟩

theorem absorptive_mergeScopes :
    Absorptive (Table.Holds ScopeOverride.WellFormed) (mergeTables ScopeOverride.merge) :=
  Table.absorptive_mergeTables ScopeOverride.absorptive_merge

theorem absorptive_merge : Absorptive WellFormed merge where
  closed _ _ := WellFormed.merge
  self c hc := by
    have hlist := fun list => absorptive_unionOption.self list trivial
    have hseverity := absorptive_mergeSeverity.self _ (holds_severity hc.severity)
    have hoptions := absorptive_mergeOptions.self _ (holds_options hc.linterConfig)
    have hscopes := absorptive_mergeScopes.self _ hc.holds_scopes
    simp only [merge, Option.or_self, hlist, hseverity, hoptions, hscopes]
  again c d hc hd := by
    have hlist := fun list other => absorptive_unionOption.again list other trivial trivial
    have hseverity := absorptive_mergeSeverity.again _ _ (holds_severity hc.severity)
      (holds_severity hd.severity)
    have hoptions := absorptive_mergeOptions.again _ _ (holds_options hc.linterConfig)
      (holds_options hd.linterConfig)
    have hscopes := absorptive_mergeScopes.again _ _ hc.holds_scopes hd.holds_scopes
    simp only [merge, Option.or_assoc, Option.or_self, hlist, hseverity, hoptions, hscopes]
  stays c d e hc hd he h := by
    -- Each setting of `c` absorbs the one of `d`, so it goes on to after that of `e`.
    have hvalue {β : Type} (g : Configuration → Option β) (h : (g c).or (g d) = g c) :=
      absorptive_or.stays (g c) (g d) (g e) trivial trivial trivial h
    have hlist (g : Configuration → Option (List String)) (h : unionOption (g c) (g d) = g c) :=
      absorptive_unionOption.stays (g c) (g d) (g e) trivial trivial trivial h
    have hseverity := absorptive_mergeSeverity.stays _ _ _ (holds_severity hc.severity)
      (holds_severity hd.severity) (holds_severity he.severity) (congrArg severity h)
    have hoptions := absorptive_mergeOptions.stays _ _ _ (holds_options hc.linterConfig)
      (holds_options hd.linterConfig) (holds_options he.linterConfig) (congrArg linterConfig h)
    have hscopes := absorptive_mergeScopes.stays _ _ _ hc.holds_scopes hd.holds_scopes
      he.holds_scopes (congrArg scopes h)
    simp only [merge, hvalue schema (congrArg schema h), hvalue root (congrArg root h),
      hlist included (congrArg included h), hlist excluded (congrArg excluded h),
      hlist extensions (congrArg extensions h), hlist plugins (congrArg plugins h),
      hlist inherited (congrArg inherited h), hlist skip (congrArg skip h), hseverity, hoptions,
      hscopes]

/-! ## Layers without repeats -/

open Classical in
/-- The layers with first occurrences only. -/
noncomputable def firstOccurrences (layers : List Configuration) : List Configuration :=
  layers.foldl (fun kept c => if c ∈ kept then kept else kept ++ [c]) []

theorem firstOccurrences_append_singleton (layers : List Configuration) (c : Configuration) :
    (c ∈ firstOccurrences layers ∧ firstOccurrences (layers ++ [c]) = firstOccurrences layers) ∨
      (c ∉ firstOccurrences layers ∧
        firstOccurrences (layers ++ [c]) = firstOccurrences layers ++ [c]) := by
  unfold firstOccurrences
  rw [List.foldl_append, List.foldl_cons, List.foldl_nil]
  split
  · exact Or.inl ⟨‹_›, rfl⟩
  · exact Or.inr ⟨‹_›, rfl⟩

theorem mem_firstOccurrences {layers : List Configuration} {c : Configuration} :
    c ∈ firstOccurrences layers ↔ c ∈ layers := by
  induction layers using List.reverseRecOn with
  | nil => rfl
  | append_singleton layers last ih =>
    rcases firstOccurrences_append_singleton layers last with ⟨hmem, heq⟩ | ⟨-, heq⟩
    · rw [heq, ih, List.mem_append, List.mem_singleton]
      refine ⟨Or.inl, fun h => h.elim id ?_⟩
      rintro rfl
      exact ih.mp hmem
    · simp [heq, ih]

theorem mergeAll_append_singleton (layers : List Configuration) (c : Configuration) :
    mergeAll (layers ++ [c]) = (mergeAll layers).merge c := by
  rw [mergeAll, List.foldl_append]
  rfl

theorem mergeAll_append_of_mem {layers : List Configuration} (h : ∀ c ∈ layers, c.WellFormed)
    {c : Configuration} (hc : c ∈ layers) : mergeAll (layers ++ [c]) = mergeAll layers := by
  rw [mergeAll_append_singleton]
  exact (absorptive_merge.foldl wellFormed_empty h).2 c hc

theorem mergeAll_firstOccurrences {layers : List Configuration} (h : ∀ c ∈ layers, c.WellFormed) :
    mergeAll (firstOccurrences layers) = mergeAll layers := by
  induction layers using List.reverseRecOn with
  | nil => rfl
  | append_singleton layers last ih =>
    have hlayers : ∀ c ∈ layers, c.WellFormed := fun c hc => h c (List.mem_append_left _ hc)
    rcases firstOccurrences_append_singleton layers last with ⟨hmem, heq⟩ | ⟨-, heq⟩
    · rw [heq, ih hlayers, mergeAll_append_of_mem hlayers (mem_firstOccurrences.mp hmem)]
    · rw [heq, mergeAll_append_singleton, mergeAll_append_singleton, ih hlayers]

/-- A layer that comes again at the end changes nothing, and neither does leaving out every layer
that has come before. -/
theorem mergeAll_absorbs {layers : List Configuration} (h : ∀ c ∈ layers, c.WellFormed) :
    (∀ c ∈ layers, mergeAll (layers ++ [c]) = mergeAll layers) ∧
      mergeAll (firstOccurrences layers) = mergeAll layers :=
  ⟨fun _ hc => mergeAll_append_of_mem h hc, mergeAll_firstOccurrences h⟩

/-- Two layers that come twice each. The upper one has a text where the lower one has an object,
and only the lower one has the second pattern, with a linter that it lists twice. -/
def comeTwice : List Configuration :=
  let above : Configuration :=
    { linterConfig := some [("naming", .object [("case", .text "any")])]
      scopes := some [("lib/**", { skip := some ["naming"] })] }
  let below : Configuration :=
    { plugins := some ["a", "a"]
      linterConfig := some
        [("naming", .object [("case", .object [("style", .null)]), ("max", .null)])]
      severity := some [("naming/long", .warn)]
      scopes := some [("tests/**", { skip := some ["size", "size"] }), ("lib/**", {})] }
  [above, below, below, above]

theorem mergeAll_absorbs_come_twice :
    (∀ c ∈ comeTwice, c.WellFormed) ∧
      (∀ c ∈ comeTwice, mergeAll (comeTwice ++ [c]) = mergeAll comeTwice) ∧
      mergeAll (firstOccurrences comeTwice) = mergeAll comeTwice := by
  have hvalues : ∀ c ∈ comeTwice, ∀ t, c.linterConfig = some t → (Value.object t).WellFormed := by
    simp [comeTwice, Value.wellFormed_object_iff, Value.WellFormed.null,
      Value.WellFormed.text, Table.Distinct, Table.names]
  have hskip (skip : Option (List String)) : ScopeOverride.WellFormed { skip } :=
    ⟨by simp, by simp⟩
  have h : ∀ c ∈ comeTwice, c.WellFormed := by
    intro c hc
    refine ⟨?_, hvalues c hc, ?_, ?_⟩ <;> revert c
    · simp [comeTwice, Table.Distinct, Table.names]
    · simp [comeTwice, Table.Distinct, Table.names]
    · simp only [comeTwice, List.forall_mem_cons, List.not_mem_nil, false_imp_iff,
        implies_true, and_true, Option.some.injEq, forall_eq', hskip]
  exact ⟨h, mergeAll_absorbs h⟩

end Configuration

end LintFront
