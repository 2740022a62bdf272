import LintFront.Proofs.Allowed
import LintFront.Proofs.Table
import Mathlib.Data.List.Basic

/-!
# The linters that a registry keeps

Plugins overlap, and a module may build a linter twice. A registry keeps the linter that came first
under its id, and all that is read from it goes by that: the ids, the linters, what the engine is
sent, and the catalogs.

* `LinterRegistry.first?`: the linter that comes first under an id.
* `LinterRegistry.KeepsFirst`: how a registry is read after some registrations.
* `LinterRegistry.register_keeps_first`: it is read so after any, and the next one is taken if its
  id is new.
* `Orchestrator.run_keepsFirst`: what a run gives the engine comes from one such registry.
-/

namespace LintFront

namespace LinterRegistry

/-! ## One registration after the other -/

/-- The linter that comes first under an id. -/
def first? (linters : List LinterDescriptor) (id : String) : Option LinterDescriptor :=
  linters.find? (·.id == id)

theorem id_of_first? {linters : List LinterDescriptor} {id : String} {l : LinterDescriptor}
    (h : first? linters id = some l) : l.id = id := by
  simpa using List.find?_some h

theorem registerAll_cons (r : LinterRegistry) (l : LinterDescriptor)
    (linters : List LinterDescriptor) :
    r.registerAll (l :: linters) = (r.register l).1.registerAll linters := rfl

theorem ids_registerAll (r : LinterRegistry) (linters : List LinterDescriptor) :
    (r.registerAll linters).ids = union r.ids (linters.map (·.id)) := by
  induction linters generalizing r with
  | nil => rfl
  | cons l linters ih => rw [registerAll_cons, ih, ids_register, List.map_cons, union_cons]

theorem find?_registerAll (r : LinterRegistry) (linters : List LinterDescriptor) (id : String) :
    (r.registerAll linters).find? id = (r.find? id).or (first? linters id) := by
  induction linters generalizing r with
  | nil => rw [first?, List.find?_nil, Option.or_none]; rfl
  | cons l linters ih =>
    rw [registerAll_cons, ih, find?_register, first?, first?, List.find?_cons]
    by_cases hid : id = l.id
    · have hsame : (l.id == id) = true := by simp [hid]
      rw [if_pos (by simp [hid]), hsame]
      cases r.find? id <;> rfl
    · have hother : (l.id == id) = false := by simpa using fun heq : l.id = id => hid heq.symm
      rw [if_neg (by simpa using hid), hother]

theorem distinct_registerAll {r : LinterRegistry} (hr : r.linters.Distinct)
    (linters : List LinterDescriptor) : (r.registerAll linters).linters.Distinct := by
  have hnames : (r.registerAll linters).linters.names = union r.ids (linters.map (·.id)) :=
    ids_registerAll r linters
  rw [Table.Distinct, hnames]
  exact nodup_union hr _

/-! ## What is read from a registry -/

/-- How a registry is read after some registrations. -/
structure KeepsFirst (linters : List LinterDescriptor) (r : LinterRegistry) : Prop where
  ids_eq : r.ids = (linters.map (·.id)).eraseDups
  find?_eq : ∀ id, r.find? id = first? linters id
  all_eq : r.all.map some = r.ids.map (first? linters)
  /-- Each linter stands at its own id. -/
  linters_eq : r.linters = r.all.map fun l => (l.id, l)
  /-- The linters are written as the list of those that came first. -/
  toValue_eq : r.toValue = lintersValue (r.ids.filterMap (first? linters))
  /-- There are catalogs of the linters that came first only. -/
  catalogs_eq : r.catalogs =
    r.ids.filterMap fun id => ((first? linters id).bind (·.catalog)).map (id, ·)

variable {linters : List LinterDescriptor} {r : LinterRegistry}

theorem linters_eq_of_find? (hr : r.linters.Distinct)
    (hfind : ∀ id, r.find? id = first? linters id) : r.linters = r.all.map fun l => (l.id, l) := by
  rw [all, Table.values, List.map_map]
  refine (List.map_id r.linters).symm.trans (List.map_congr_left fun entry hentry => ?_)
  have hfirst : first? linters entry.1 = some entry.2 :=
    (hfind entry.1).symm.trans (hr.find?_of_mem hentry)
  exact Prod.ext (id_of_first? hfirst).symm rfl

theorem all_eq_of_find? (hr : r.linters.Distinct)
    (hfind : ∀ id, r.find? id = first? linters id) :
    r.all.map some = r.ids.map (first? linters) := by
  have hfirst : r.find? = first? linters := funext hfind
  rw [all, ← hr.map_find?, ← hfirst]
  rfl

/-- No id has two catalogs, so none takes the place of another. -/
theorem catalogs_eq_of_find? (hr : r.linters.Distinct)
    (hfind : ∀ id, r.find? id = first? linters id) :
    r.catalogs = r.ids.filterMap fun id => ((first? linters id).bind (·.catalog)).map (id, ·) := by
  have hlisted : r.ids.filterMap (fun id => ((first? linters id).bind (·.catalog)).map (id, ·)) =
      r.all.filterMap fun l => l.catalog.map (l.id, ·) := by
    rw [ids, all, Table.names, Table.values, List.filterMap_map, List.filterMap_map]
    refine List.filterMap_congr fun entry hentry => ?_
    have hfirst : first? linters entry.1 = some entry.2 :=
      (hfind entry.1).symm.trans (hr.find?_of_mem hentry)
    rw [Function.comp_apply, Function.comp_apply, hfirst, id_of_first? hfirst]
    rfl
  have hdistinct := Table.distinct_filterMap (fun id => (first? linters id).bind (·.catalog)) hr
  rw [catalogs, ← hlisted]
  exact Table.mergeWith_nil_left _ hdistinct

theorem ids_registerAll_nil (linters : List LinterDescriptor) :
    (registerAll {} linters).ids = (linters.map (·.id)).eraseDups := by
  rw [ids_registerAll, ← dedupe_eq_eraseDups]
  rfl

/-- A registry is read as the linters that came first. -/
theorem keepsFirst_registerAll (linters : List LinterDescriptor) :
    (registerAll {} linters).KeepsFirst linters := by
  have hfind : ∀ id, (registerAll {} linters).find? id = first? linters id := by
    intro id
    rw [find?_registerAll]
    exact Option.none_or
  have hdistinct : (registerAll {} linters).linters.Distinct :=
    distinct_registerAll Table.distinct_nil linters
  have hall := all_eq_of_find? hdistinct hfind
  have hlisted : (registerAll {} linters).ids.filterMap (first? linters) =
      (registerAll {} linters).all := by
    rw [← Function.id_comp (first? linters), ← List.filterMap_map, ← hall, List.filterMap_map]
    exact List.filterMap_some
  exact {
    ids_eq := ids_registerAll_nil linters
    find?_eq := hfind
    all_eq := hall
    linters_eq := linters_eq_of_find? hdistinct hfind
    toValue_eq := by rw [toValue, hlisted]
    catalogs_eq := catalogs_eq_of_find? hdistinct hfind }

end LinterRegistry

/-! ## Runs -/

namespace Orchestrator

variable {o : Orchestrator} {disk : Disk} {args : RunArgs}

theorem Gathers.exists_registerAll {builder : BuilderConfig} {config : ResolvedConfig}
    {steps : List Step} {g : Gathering} (h : o.Gathers args builder config steps (.ok g)) :
    ∃ linters, g.registry = .registerAll {} linters := by
  generalize hg : (Except.ok g : Except RunError Gathering) = gathered at h
  cases h with
  | built =>
    cases hg
    exact ⟨builder.linters, rfl⟩
  | unasked =>
    cases hg
    exact ⟨[], rfl⟩
  | undiscovered => cases hg
  | @discovered found =>
    obtain ⟨_, -, rfl⟩ := map_eq_ok_iff.mp hg.symm
    exact ⟨found.linters, rfl⟩

/-- What a run gives the engine comes from one registry: the linters, and the catalogs of the same
ones. -/
theorem run_keepsFirst {linting : RunOptions × LinterRegistry}
    (hlinting : linting ∈ lintings (o.run disk args).2) :
    ∃ linters, linting.2.KeepsFirst linters ∧ linting.1.catalogs = linting.2.catalogs := by
  obtain ⟨steps, result, hcourse⟩ := exists_course o disk args
  rw [hcourse.lintings_run] at hlinting
  rcases hcourse.prepares_or_unseen with ⟨root, evaluation, builder, loaded, hprepares⟩ | hunseen
  · obtain ⟨gathering, gathered, closing, hgather, hclose, heq⟩ := hcourse.lintings_eq hprepares
    rw [heq] at hlinting
    obtain ⟨g, rfl, rfl, -⟩ := hclose.of_mem_lintings hlinting
    obtain ⟨linters, hlinters⟩ := hgather.exists_registerAll
    refine ⟨linters, ?_, rfl⟩
    rw [hlinters]
    exact LinterRegistry.keepsFirst_registerAll linters
  · rw [hunseen.2] at hlinting
    cases hlinting

end Orchestrator

end LintFront
