import LintFront.Plugin.Discovery
import Mathlib.Data.List.Forall2

/-!
# Replies about plugins

The engine replies about plugins in any state: some could not be imported, some export nothing, some
nest their linters in any depth. Each of them comes to its linters or to one failure, and what is
found holds all of that in the order of the reply, whatever the others come to.

* `PluginExport.Holds`: an export holds a linter, at any depth.
* `DiscoveredPlugin.Outcome`: what a plugin comes to.
* `DiscoveredPlugin.Outcome.linters_eq`: its linters, or the one kind of error that is passed over.
* `Discovery.addPlugin_eq`: what one plugin adds.
* `Discovery.ofReply_outcomes`: what a reply comes to.
-/

namespace LintFront

/-! ## Exports -/

namespace PluginExport

/-- An export holds a linter: it is the linter, or something in it holds it. -/
inductive Holds (l : LinterDescriptor) : PluginExport → Prop
  | linter : Holds l (.linter l)
  | many {items : List PluginExport} {item : PluginExport} (hitem : item ∈ items)
    (h : Holds l item) : Holds l (.many items)
  | collection {items : List PluginExport} {item : PluginExport} (hitem : item ∈ items)
    (h : Holds l item) : Holds l (.collection items)
  | defaulted {inner : PluginExport} (h : Holds l inner) : Holds l (.defaulted inner)

variable {l : LinterDescriptor}

mutual

/-- Flattening finds the linters that an export holds, and no others. -/
theorem mem_flatten_iff : ∀ e : PluginExport, l ∈ e.flatten ↔ e.Holds l
  | .linter descriptor => by
    rw [flatten, List.mem_singleton]
    constructor
    · rintro rfl
      exact .linter
    · rintro ⟨⟩
      rfl
  | .many items => by
    rw [flatten, mem_flattenItems_iff items]
    constructor
    · rintro ⟨item, hitem, h⟩
      exact .many hitem h
    · rintro ⟨⟩
      exact ⟨_, ‹_›, ‹_›⟩
  | .collection items => by
    rw [flatten, mem_flattenItems_iff items]
    constructor
    · rintro ⟨item, hitem, h⟩
      exact .collection hitem h
    · rintro ⟨⟩
      exact ⟨_, ‹_›, ‹_›⟩
  | .defaulted inner => by
    rw [flatten, mem_flatten_iff inner]
    constructor
    · exact .defaulted
    · rintro ⟨⟩
      assumption
  | .unrecognized => by
    rw [flatten]
    exact iff_of_false List.not_mem_nil nofun

theorem mem_flattenItems_iff : ∀ items : List PluginExport,
    l ∈ flattenItems items ↔ ∃ item ∈ items, item.Holds l
  | [] => by simp [flattenItems]
  | item :: rest => by
    rw [flattenItems, List.mem_append, mem_flatten_iff item, mem_flattenItems_iff rest]
    simp

end

end PluginExport

/-- What a plugin comes to: linters, or why it is of no use. -/
abbrev PluginOutcome := Except PluginFailure (List LinterDescriptor)

/-! ## One plugin -/

namespace DiscoveredPlugin

variable {p : DiscoveredPlugin} {outcome : PluginOutcome}

/-- The linters that a plugin exports, however they are nested. -/
def exported (p : DiscoveredPlugin) : List LinterDescriptor :=
  (p.exports.map PluginExport.flatten).getD []

/-- The failure of a plugin, with what has gone wrong. -/
def failure (p : DiscoveredPlugin) (message : String) : PluginFailure :=
  ⟨p.specifier, "Plugin error in '" ++ p.specifier ++ "': " ++ message⟩

/-- A plugin with an error fails, whatever it exports, and so does one that exports nothing. Any
other comes to its linters, of which those without a source have the plugin as theirs. -/
inductive Outcome (p : DiscoveredPlugin) : PluginOutcome → Prop
  | failed {message : String} (herror : p.error = some message) :
    Outcome p (.error (p.failure message))
  | useless (herror : p.error = none) (hnone : p.exported = []) :
    Outcome p (.error (p.failure "module exports no linters"))
  | useful (herror : p.error = none) (hsome : p.exported ≠ []) :
    Outcome p
      (.ok (p.exported.map fun l => { l with source := some (l.source.getD p.specifier) }))

theorem exists_outcome (p : DiscoveredPlugin) : ∃ outcome, p.Outcome outcome := by
  cases herror : p.error with
  | some message => exact ⟨_, .failed herror⟩
  | none =>
    by_cases hnone : p.exported = []
    · exact ⟨_, .useless herror hnone⟩
    · exact ⟨_, .useful herror hnone⟩

theorem exported_ne_nil_iff :
    p.exported ≠ [] ↔ ∃ e l, p.exports = some e ∧ e.Holds l := by
  rw [exported]
  cases hexports : p.exports with
  | none => simp
  | some e =>
    rw [Option.map_some, Option.getD_some, ne_eq, List.eq_nil_iff_forall_not_mem]
    simp [PluginExport.mem_flatten_iff]

/-- A plugin comes to linters if and only if it has no error and exports some. -/
theorem Outcome.isOk_iff (h : p.Outcome outcome) :
    outcome.isOk = true ↔
      p.error = none ∧ ∃ e l, p.exports = some e ∧ e.Holds l := by
  rw [← exported_ne_nil_iff]
  cases h with
  | failed herror => exact iff_of_false Bool.false_ne_true (by simp [herror])
  | useless herror hnone => exact iff_of_false Bool.false_ne_true (by simp [hnone])
  | useful herror hsome => exact iff_of_true rfl ⟨herror, hsome⟩

theorem linters_eq (p : DiscoveredPlugin) :
    p.linters =
      match p.error with
      | some message => .error (.plugin p.specifier (.other message))
      | none =>
        if p.exported = [] then .error (.plugin p.specifier .noLinters)
        else .ok (p.exported.map (·.orSource p.specifier)) := by
  unfold linters exported
  cases p.error with
  | some message => rfl
  | none => cases (p.exports.map PluginExport.flatten).getD [] <;> simp

/-- The linters of a plugin are those that it comes to, and its failure is of the one kind that is
passed over. -/
theorem Outcome.linters_eq (h : p.Outcome outcome) :
    (∃ linters, p.linters = .ok linters ∧ outcome = .ok linters) ∨
      ∃ problem, p.linters = .error (.plugin p.specifier problem) ∧
        outcome = .error (p.failure problem.message) := by
  cases h with
  | failed herror =>
    exact Or.inr ⟨.other _, by rw [DiscoveredPlugin.linters_eq, herror], rfl⟩
  | useless herror hnone =>
    exact Or.inr ⟨.noLinters, by rw [DiscoveredPlugin.linters_eq, herror, if_pos hnone], rfl⟩
  | useful herror hsome =>
    refine Or.inl ⟨_, by rw [DiscoveredPlugin.linters_eq, herror, if_neg hsome], ?_⟩
    congr 2
    funext l
    cases hsource : l.source <;> simp [LinterDescriptor.orSource, hsource]

end DiscoveredPlugin

/-! ## What is found -/

namespace Discovery

variable {d : Discovery} {p : DiscoveredPlugin} {outcome : PluginOutcome}
  {plugins : List DiscoveredPlugin} {outcomes : List PluginOutcome}

/-- The linters of several plugins, in order. -/
def linterList (outcomes : List PluginOutcome) : List LinterDescriptor :=
  outcomes.flatMap fun
    | .ok linters => linters
    | .error _ => []

/-- The failures of several plugins, in order. -/
def failureList (outcomes : List PluginOutcome) : List PluginFailure :=
  outcomes.filterMap fun
    | .ok _ => none
    | .error failure => some failure

/-- What has been found, with the outcomes of more plugins behind it. -/
def extended (d : Discovery) (outcomes : List PluginOutcome) : Discovery :=
  { d with
    linters := d.linters ++ linterList outcomes
    failures := d.failures ++ failureList outcomes }

theorem addPlugin_eq (h : p.Outcome outcome) : d.addPlugin p = .ok (d.extended [outcome]) := by
  unfold addPlugin
  rcases h.linters_eq with ⟨linters, hlinters, rfl⟩ | ⟨problem, hlinters, rfl⟩
  · rw [hlinters]
    simp only [extended, linterList, failureList, List.flatMap_singleton, List.filterMap_cons,
      List.filterMap_nil, List.append_nil]
    rfl
  · rw [hlinters]
    simp only [extended, linterList, failureList, List.flatMap_singleton, List.filterMap_cons,
      List.filterMap_nil]
    rfl

theorem extended_cons (d : Discovery) (outcome : PluginOutcome) (rest : List PluginOutcome) :
    d.extended (outcome :: rest) = (d.extended [outcome]).extended rest := by
  cases outcome <;> simp [extended, linterList, failureList]

theorem addPlugins_eq (h : List.Forall₂ DiscoveredPlugin.Outcome plugins outcomes) :
    d.addPlugins plugins = .ok (d.extended outcomes) := by
  induction h generalizing d with
  | nil => simp [addPlugins, extended, linterList, failureList]
  | cons hp _ ih =>
    rw [addPlugins, addPlugin_eq hp]
    exact ih.trans (congrArg Except.ok (extended_cons d _ _).symm)

/-- Whatever the engine replies, something is found. Each plugin comes to its linters or to one
failure, and what is found holds just these, in the order of the reply. -/
theorem ofReply_outcomes (reply : DiscoveryReply) :
    ∃ outcomes : List PluginOutcome,
      List.Forall₂ DiscoveredPlugin.Outcome reply.plugins outcomes ∧
      List.Forall₂ (fun p outcome => outcome.isOk = true ↔
          p.error = none ∧ ∃ e l, p.exports = some e ∧ e.Holds l)
        reply.plugins outcomes ∧
      ofReply reply = .ok
        { linters := linterList outcomes
          bundles := reply.bundles
          presets := reply.presets
          failures := failureList outcomes } := by
  obtain ⟨outcomes, houtcomes⟩ : ∃ outcomes,
      List.Forall₂ DiscoveredPlugin.Outcome reply.plugins outcomes := by
    induction reply.plugins with
    | nil => exact ⟨[], .nil⟩
    | cons p rest ih =>
      obtain ⟨outcomes, hrest⟩ := ih
      obtain ⟨outcome, hp⟩ := p.exists_outcome
      exact ⟨outcome :: outcomes, .cons hp hrest⟩
  exact ⟨outcomes, houtcomes, houtcomes.imp fun _ _ h => h.isOk_iff, addPlugins_eq houtcomes⟩

end Discovery

end LintFront
