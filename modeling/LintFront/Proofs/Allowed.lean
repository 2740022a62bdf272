import LintFront.Proofs.Course
import LintFront.Proofs.Loaded

/-!
# What is allowed of a run

Whatever goes wrong in a run, modules are evaluated, plugins asked for and files looked at only
when it is their turn, and at most once; the user is told one last thing, and the exit code agrees
with it. Only a run that is handed over to another program says nothing and takes over its code.

* `discoveries`, `lintings`, `finalEvents`: what is seen of a run.
* `Orchestrator.Allowed`: what is allowed of a run.
* `Orchestrator.Course.ends`: how a run comes to an exit code.
* `Orchestrator.run_allowed`: every run is allowed.
-/

namespace LintFront

/-! ## What is seen of a run -/

/-- The modules that are evaluated. -/
def evaluations : List Step → List String :=
  List.filterMap fun
    | .evaluate path => some path
    | _ => none

/-- The specifiers of the plugins that the engine is asked for, time by time. -/
def discoveries : List Step → List (List String) :=
  List.filterMap fun
    | .discover specifiers _ => some specifiers
    | _ => none

/-- What the engine is given to look at the files, time by time. -/
def lintings : List Step → List (RunOptions × LinterRegistry) :=
  List.filterMap fun
    | .lint options registry => some (options, registry)
    | _ => none

/-- What the user is told. -/
def toldEvents : List Step → List Event :=
  List.filterMap fun
    | .tell event => some event
    | _ => none

/-- An event with which a run is over. -/
def Event.isFinal : Event → Bool
  | .linters _ => true
  | .noLinters => true
  | .results _ => true
  | .failed .. => true
  | .sources _ => false
  | .pluginFailure _ => false

/-- What the user is told when a run is over. -/
def finalEvents (steps : List Step) : List Event := (toldEvents steps).filter Event.isFinal

namespace Orchestrator

variable {o : Orchestrator} {disk : Disk} {args : RunArgs} {root : String}

/-! ## What is seen of the stages -/

theorem evaluations_append (a b : List Step) :
    evaluations (a ++ b) = evaluations a ++ evaluations b := List.filterMap_append

theorem discoveries_append (a b : List Step) :
    discoveries (a ++ b) = discoveries a ++ discoveries b := List.filterMap_append

theorem lintings_append (a b : List Step) : lintings (a ++ b) = lintings a ++ lintings b :=
  List.filterMap_append

theorem finalEvents_append (a b : List Step) :
    finalEvents (a ++ b) = finalEvents a ++ finalEvents b := by
  simp only [finalEvents, toldEvents, List.filterMap_append, List.filter_append]

/-- Steps in which nothing is asked and nothing final is told. -/
structure Quiet (steps : List Step) : Prop where
  evaluations_eq : evaluations steps = []
  discoveries_eq : discoveries steps = []
  lintings_eq : lintings steps = []
  finalEvents_eq : finalEvents steps = []

theorem quiet_announcement (args : RunArgs) (loaded : Loaded) :
    Quiet (announcement args loaded) := by
  unfold announcement
  split
  · exact ⟨rfl, rfl, rfl, rfl⟩
  · exact ⟨rfl, rfl, rfl, rfl⟩

theorem quiet_pluginFailures (failures : List PluginFailure) :
    Quiet (failures.map fun failure => .tell (.pluginFailure failure)) := by
  induction failures with
  | nil => exact ⟨rfl, rfl, rfl, rfl⟩
  | cons failure rest ih =>
    exact ⟨ih.evaluations_eq, ih.discoveries_eq, ih.lintings_eq, ih.finalEvents_eq⟩

section

variable {steps evaluation gathering closing : List Step} {builder : BuilderConfig}
  {config : ResolvedConfig} {loaded : Loaded} {gathered : Except RunError Gathering}
  {result : Except RunError UInt8}

theorem Evaluates.evaluations_eq {outcome : Except RunError ModuleOutcome}
    (h : o.Evaluates disk args root steps outcome) (hpreloaded : args.preloaded.isSome = true) :
    evaluations steps = [] := by
  cases h with
  | handedOver => rfl
  | lost => rfl
  | absent => rfl
  | evaluated h =>
    rw [h] at hpreloaded
    cases hpreloaded

/-- The evaluation of a module is seen as such only. -/
theorem Evaluates.unseen {outcome : Except RunError ModuleOutcome}
    (h : o.Evaluates disk args root steps outcome) :
    discoveries steps = [] ∧ lintings steps = [] ∧ toldEvents steps = [] := by
  cases h with
  | handedOver => exact ⟨rfl, rfl, rfl⟩
  | lost => exact ⟨rfl, rfl, rfl⟩
  | absent => exact ⟨rfl, rfl, rfl⟩
  | evaluated => exact ⟨rfl, rfl, rfl⟩

theorem Evaluates.finalEvents_eq {outcome : Except RunError ModuleOutcome}
    (h : o.Evaluates disk args root steps outcome) : finalEvents steps = [] := by
  rw [finalEvents, h.unseen.2.2]
  rfl

theorem Gathers.discoveries_eq (h : o.Gathers args builder config gathering gathered) :
    discoveries gathering =
      if builder.hasLinters = false ∧ requested args config ≠ [] then [requested args config]
      else [] := by
  cases h with
  | built h =>
    rw [if_neg (by simp [h])]
    rfl
  | unasked h hnone =>
    rw [if_neg (by simp [hnone])]
    rfl
  | undiscovered h hsome =>
    rw [if_pos ⟨h, hsome⟩]
    rfl
  | @discovered found h hsome =>
    rw [if_pos ⟨h, hsome⟩]
    exact congrArg (requested args config :: ·) (quiet_pluginFailures found.failures).discoveries_eq

theorem Gathers.unseen (h : o.Gathers args builder config gathering gathered) :
    evaluations gathering = [] ∧ lintings gathering = [] ∧ finalEvents gathering = [] := by
  cases h with
  | built => exact ⟨rfl, rfl, rfl⟩
  | unasked => exact ⟨rfl, rfl, rfl⟩
  | undiscovered => exact ⟨rfl, rfl, rfl⟩
  | @discovered found =>
    have hquiet := quiet_pluginFailures found.failures
    exact ⟨hquiet.evaluations_eq, hquiet.lintings_eq, hquiet.finalEvents_eq⟩

theorem Closes.unseen (h : o.Closes args root builder gathered closing result) :
    evaluations closing = [] ∧ discoveries closing = [] := by
  cases h with
  | ungathered => exact ⟨rfl, rfl⟩
  | empty => exact ⟨rfl, rfl⟩
  | listed => exact ⟨rfl, rfl⟩
  | unlinted => exact ⟨rfl, rfl⟩
  | linted => exact ⟨rfl, rfl⟩

end

/-! ## What is allowed of a run -/

/-- A run is handed over to another program, which ends with a code. -/
def Delegates (o : Orchestrator) (disk : Disk) (args : RunArgs) (code : UInt8) : Prop :=
  ∃ root evaluation, projectRoot disk args.project = .ok root ∧
    o.Evaluates disk args root evaluation (.ok (.delegated code))

/-- A stage of a run fails. -/
def Fails (o : Orchestrator) (disk : Disk) (args : RunArgs) (e : RunError) : Prop :=
  ∃ steps, o.Course disk args steps (.error e)

/-- The engine looks at the files of a project and reports on them. -/
def Reports (o : Orchestrator) (disk : Disk) (args : RunArgs) (report : RunReport) : Prop :=
  ∃ root evaluation gathering builder loaded g,
    o.Prepares disk args root evaluation builder loaded ∧
    o.Gathers args builder loaded.config gathering (.ok g) ∧
    g.registry.isEmpty = false ∧ args.list = false ∧
    o.engine.run (options root args builder g) g.registry = .ok report

/-- Another way to evaluate modules. -/
def withModules (o : Orchestrator) (here bridge : ModuleStrategy)
    (load : String → Except RunError BuilderConfig) : Orchestrator :=
  { o with
    engine := { o.engine with loadModule := load }
    evaluateHere := here
    bridge := bridge }

/-- What is allowed of a run that ends with a code after some steps. -/
structure Allowed (o : Orchestrator) (disk : Disk) (args : RunArgs) (code : UInt8)
    (steps : List Step) : Prop where
  /-- Where the value of the module is handed over, no module is evaluated, and it does not matter
  how one would be. -/
  handedOver : args.preloaded.isSome = true → evaluations steps = [] ∧
    ∀ here bridge load, (o.withModules here bridge load).run disk args = (code, steps)
  discoversOnce : ∀ specifiers ∈ discoveries steps,
    discoveries steps = [specifiers] ∧ specifiers.Nodup
  /-- Plugins are asked for exactly when the run gets as far as its linters, the module has none,
  and there are specifiers. -/
  discovers : ∀ specifiers, specifiers ∈ discoveries steps ↔
    ∃ root evaluation builder loaded, o.Prepares disk args root evaluation builder loaded ∧
      builder.hasLinters = false ∧ requested args loaded.config ≠ [] ∧
      specifiers = requested args loaded.config
  lintsOnce : ∀ linting ∈ lintings steps, lintings steps = [linting] ∧
    linting.2.isEmpty = false ∧ args.list = false
  /-- Specifiers would register the linters of the module a second time. -/
  lintsBuilt : ∀ root evaluation builder loaded,
    o.Prepares disk args root evaluation builder loaded → builder.hasLinters = true →
    ∀ linting ∈ lintings steps, linting.1.plugins = []
  delegated : ∀ delegatedCode, o.Delegates disk args delegatedCode →
    code = delegatedCode ∧ toldEvents steps = []
  finishes : (∀ delegatedCode, ¬ o.Delegates disk args delegatedCode) →
    ∃ before event, steps = before ++ [.tell event] ∧ event.isFinal = true ∧
      finalEvents before = []
  code_eq : (∀ delegatedCode, ¬ o.Delegates disk args delegatedCode) →
    (code = 0 ∨ code = 1) ∧
    (code = 0 ↔ args.list = true ∧ (∀ e, o.Fails disk args e → e = .noPlugins) ∨
      ∃ report, o.Reports disk args report ∧
        (report.hasErrors = false ∨ args.reportOnly = true))

/-! ## What is seen of a course -/

section

variable {steps evaluation : List Step} {builder : BuilderConfig} {loaded : Loaded}
  {result : Except RunError UInt8}

theorem Course.evaluations_eq (h : o.Course disk args steps result)
    (hpreloaded : args.preloaded.isSome = true) : evaluations steps = [] := by
  cases h with
  | lost => rfl
  | unevaluated _ hmodule => exact hmodule.evaluations_eq hpreloaded
  | delegated _ hmodule => exact hmodule.evaluations_eq hpreloaded
  | unresolved _ hmodule => exact hmodule.evaluations_eq hpreloaded
  | @prepared _ _ _ _ _ loaded _ _ hprepares hgather hclose =>
    simp only [evaluations_append, hprepares.evaluates.evaluations_eq hpreloaded,
      (quiet_announcement args loaded).evaluations_eq, hgather.unseen.1, hclose.unseen.1,
      List.append_nil]

/-- The engine is asked for something only in a run that gets as far as its linters. -/
theorem Course.prepares_or_unseen (h : o.Course disk args steps result) :
    (∃ root evaluation builder loaded, o.Prepares disk args root evaluation builder loaded) ∨
      discoveries steps = [] ∧ lintings steps = [] := by
  cases h with
  | lost => exact Or.inr ⟨rfl, rfl⟩
  | unevaluated _ hmodule => exact Or.inr ⟨hmodule.unseen.1, hmodule.unseen.2.1⟩
  | delegated _ hmodule => exact Or.inr ⟨hmodule.unseen.1, hmodule.unseen.2.1⟩
  | unresolved _ hmodule => exact Or.inr ⟨hmodule.unseen.1, hmodule.unseen.2.1⟩
  | prepared hprepares => exact Or.inl ⟨_, _, _, _, hprepares⟩

theorem Course.discoveries_eq (h : o.Course disk args steps result)
    (hprepares : o.Prepares disk args root evaluation builder loaded) :
    discoveries steps =
      if builder.hasLinters = false ∧ requested args loaded.config ≠ [] then
        [requested args loaded.config]
      else [] := by
  obtain ⟨gathering, gathered, closing, hgather, hclose, rfl⟩ := h.of_prepares hprepares
  simp only [discoveries_append, hprepares.evaluates.unseen.1,
    (quiet_announcement args loaded).discoveries_eq, hclose.unseen.2, List.append_nil,
    List.nil_append]
  exact hgather.discoveries_eq

theorem Course.mem_discoveries_iff (h : o.Course disk args steps result)
    {specifiers : List String} :
    specifiers ∈ discoveries steps ↔
      ∃ root evaluation builder loaded, o.Prepares disk args root evaluation builder loaded ∧
        builder.hasLinters = false ∧ requested args loaded.config ≠ [] ∧
        specifiers = requested args loaded.config := by
  constructor
  · intro hmem
    rcases h.prepares_or_unseen with ⟨root, evaluation, builder, loaded, hprepares⟩ | hunseen
    · rw [h.discoveries_eq hprepares] at hmem
      split at hmem
      · rename_i hasked
        exact ⟨root, evaluation, builder, loaded, hprepares, hasked.1, hasked.2,
          List.mem_singleton.mp hmem⟩
      · cases hmem
    · rw [hunseen.1] at hmem
      cases hmem
  · rintro ⟨root, evaluation, builder, loaded, hprepares, hnone, hsome, rfl⟩
    rw [h.discoveries_eq hprepares, if_pos ⟨hnone, hsome⟩]
    exact List.mem_singleton_self _

theorem Course.lintings_eq (h : o.Course disk args steps result)
    (hprepares : o.Prepares disk args root evaluation builder loaded) :
    ∃ gathering gathered closing, o.Gathers args builder loaded.config gathering gathered ∧
      o.Closes args root builder gathered closing result ∧ lintings steps = lintings closing := by
  obtain ⟨gathering, gathered, closing, hgather, hclose, rfl⟩ := h.of_prepares hprepares
  refine ⟨gathering, gathered, closing, hgather, hclose, ?_⟩
  simp only [lintings_append, hprepares.evaluates.unseen.2.1,
    (quiet_announcement args loaded).lintings_eq, hgather.unseen.2.1, List.nil_append]

/-- What the engine is given comes from the linters that have been gathered. -/
theorem Closes.of_mem_lintings {gathered : Except RunError Gathering}
    (h : o.Closes args root builder gathered steps result)
    {linting : RunOptions × LinterRegistry} (hlinting : linting ∈ lintings steps) :
    ∃ g, gathered = .ok g ∧ linting = (options root args builder g, g.registry) ∧
      lintings steps = [linting] ∧ g.registry.isEmpty = false ∧ args.list = false := by
  cases h with
  | ungathered => cases hlinting
  | empty => cases hlinting
  | listed => cases hlinting
  | unlinted hnonempty hlist =>
    obtain rfl := List.mem_singleton.mp hlinting
    exact ⟨_, rfl, rfl, rfl, hnonempty, hlist⟩
  | linted hnonempty hlist =>
    obtain rfl := List.mem_singleton.mp hlinting
    exact ⟨_, rfl, rfl, rfl, hnonempty, hlist⟩

theorem Course.of_mem_lintings (h : o.Course disk args steps result)
    {linting : RunOptions × LinterRegistry} (hlinting : linting ∈ lintings steps) :
    lintings steps = [linting] ∧ linting.2.isEmpty = false ∧ args.list = false := by
  rcases h.prepares_or_unseen with ⟨root, evaluation, builder, loaded, hprepares⟩ | hunseen
  · obtain ⟨gathering, gathered, closing, -, hclose, heq⟩ := h.lintings_eq hprepares
    rw [heq] at hlinting ⊢
    obtain ⟨g, -, rfl, honce, hnonempty, hlist⟩ := hclose.of_mem_lintings hlinting
    exact ⟨honce, hnonempty, hlist⟩
  · rw [hunseen.2] at hlinting
    cases hlinting

/-- Linters that a module has built come without specifiers. -/
theorem Course.plugins_eq (h : o.Course disk args steps result)
    (hprepares : o.Prepares disk args root evaluation builder loaded)
    (hbuilt : builder.hasLinters = true) {linting : RunOptions × LinterRegistry}
    (hlinting : linting ∈ lintings steps) : linting.1.plugins = [] := by
  obtain ⟨gathering, gathered, closing, hgather, hclose, heq⟩ := h.lintings_eq hprepares
  rw [heq] at hlinting
  obtain ⟨g, rfl, rfl, -⟩ := hclose.of_mem_lintings hlinting
  generalize hg : (Except.ok g : Except RunError Gathering) = gathered at hgather
  cases hgather with
  | built =>
    cases hg
    rfl
  | unasked hnone =>
    rw [hbuilt] at hnone
    cases hnone
  | undiscovered hnone =>
    rw [hbuilt] at hnone
    cases hnone
  | discovered hnone =>
    rw [hbuilt] at hnone
    cases hnone

end

/-- The plugins that are asked for are distinct. -/
theorem nodup_requested {loaded : Loaded}
    (h : o.resolver.resolve disk root args.config = .ok loaded) :
    (requested args loaded.config).Nodup := by
  unfold requested
  cases args.plugins with
  | some plugins => exact nodup_dedupe plugins
  | none => exact (Resolver.listedOnce_of_resolve h).plugins

theorem Course.of_mem_discoveries {steps : List Step} {result : Except RunError UInt8}
    (h : o.Course disk args steps result) {specifiers : List String}
    (hmem : specifiers ∈ discoveries steps) :
    discoveries steps = [specifiers] ∧ specifiers.Nodup := by
  obtain ⟨root, evaluation, builder, loaded, hprepares, hnone, hsome, rfl⟩ :=
    h.mem_discoveries_iff.mp hmem
  refine ⟨?_, nodup_requested hprepares.resolve_eq⟩
  rw [h.discoveries_eq hprepares, if_pos ⟨hnone, hsome⟩]

/-! ## The end of a run -/

theorem run_of_ok {steps : List Step} {code : UInt8} (h : o.Course disk args steps (.ok code)) :
    o.run disk args = (code, steps) := by
  rw [run, h.takes []]
  rfl

theorem run_of_error {steps : List Step} {e : RunError}
    (h : o.Course disk args steps (.error e)) :
    o.run disk args =
      if args.list = true ∧ e = .noPlugins then (0, steps ++ [.tell .noLinters])
      else (1, steps ++ [.tell (.failed e args.verbose)]) := by
  rw [run, h.takes []]
  simp only [List.nil_append, Bool.and_eq_true, beq_iff_eq]

theorem Course.finalEvents_eq {steps : List Step} {e : RunError}
    (h : o.Course disk args steps (.error e)) : finalEvents steps = [] := by
  cases h with
  | lost => rfl
  | unevaluated _ hmodule => exact hmodule.finalEvents_eq
  | unresolved _ hmodule => exact hmodule.finalEvents_eq
  | @prepared _ _ _ closing _ loaded _ _ hprepares hgather hclose =>
    have hclosing : finalEvents closing = [] := by
      cases hclose with
      | ungathered => rfl
      | empty => rfl
      | unlinted => rfl
    simp only [finalEvents_append, hprepares.evaluates.finalEvents_eq,
      (quiet_announcement args loaded).finalEvents_eq, hgather.unseen.2.2, hclosing,
      List.append_nil]

/-- A run that comes to an exit code has been handed over, or ends with the list of the linters or
with what the engine reports. -/
theorem Course.ends {steps : List Step} {code : UInt8} (h : o.Course disk args steps (.ok code)) :
    o.Delegates disk args code ∨
      ∃ before event, steps = before ++ [.tell event] ∧ event.isFinal = true ∧
        finalEvents before = [] ∧
        (args.list = true ∧ code = 0 ∨ args.list = false ∧ ∃ report,
          o.Reports disk args report ∧ code = exitCode report.hasErrors args.reportOnly) := by
  cases h with
  | @delegated root _ _ hroot hmodule => exact Or.inl ⟨root, steps, hroot, hmodule⟩
  | @prepared root evaluation gathering _ builder loaded _ _ hprepares hgather hclose =>
    right
    have hbefore : finalEvents (evaluation ++ (announcement args loaded ++ gathering)) = [] := by
      simp only [finalEvents_append, hprepares.evaluates.finalEvents_eq,
        (quiet_announcement args loaded).finalEvents_eq, hgather.unseen.2.2, List.append_nil]
    cases hclose with
    | @listed g _ hlist =>
      refine ⟨evaluation ++ (announcement args loaded ++ gathering), .linters g.registry, ?_, rfl,
        hbefore, Or.inl ⟨hlist, rfl⟩⟩
      simp only [List.append_assoc]
    | @linted g report hnonempty hlist hrun =>
      refine ⟨evaluation ++ (announcement args loaded ++ gathering) ++
        [.lint (options root args builder g) g.registry], .results (o.engine.format report), ?_,
        rfl, ?_, Or.inr ⟨hlist, report, ?_, rfl⟩⟩
      · simp only [List.append_assoc, List.cons_append, List.nil_append]
      · rw [finalEvents_append, hbefore]
        rfl
      · exact ⟨root, evaluation, gathering, builder, loaded, g, hprepares, hgather, hnonempty,
          hlist, hrun⟩

theorem Delegates.course {code : UInt8} (h : o.Delegates disk args code) :
    ∃ steps, o.Course disk args steps (.ok code) ∧ toldEvents steps = [] := by
  obtain ⟨root, evaluation, hroot, hmodule⟩ := h
  exact ⟨evaluation, .delegated hroot hmodule, hmodule.unseen.2.2⟩

theorem Reports.course {report : RunReport} (h : o.Reports disk args report) :
    ∃ steps, o.Course disk args steps (.ok (exitCode report.hasErrors args.reportOnly)) := by
  obtain ⟨root, evaluation, gathering, builder, loaded, g, hprepares, hgather, hnonempty, hlist,
    hrun⟩ := h
  exact ⟨_, .prepared hprepares hgather (.linted hnonempty hlist hrun)⟩

theorem exitCode_eq_zero_iff (hasErrors reportOnly : Bool) :
    exitCode hasErrors reportOnly = 0 ↔ hasErrors = false ∨ reportOnly = true := by
  cases hasErrors <;> cases reportOnly <;> decide

theorem exitCode_cases (hasErrors reportOnly : Bool) :
    exitCode hasErrors reportOnly = 0 ∨ exitCode hasErrors reportOnly = 1 := by
  unfold exitCode
  split
  · exact Or.inr rfl
  · exact Or.inl rfl

/-- The steps of a run are those of its course, and one more if it has failed. -/
theorem exists_run (o : Orchestrator) (disk : Disk) (args : RunArgs) :
    ∃ steps result ending, o.Course disk args steps result ∧
      (o.run disk args).2 = steps ++ ending ∧ (ending = [] ∨ ∃ event, ending = [.tell event]) := by
  obtain ⟨steps, result, h⟩ := exists_course o disk args
  refine ⟨steps, result, ?_⟩
  cases result with
  | ok code => exact ⟨[], h, by rw [run_of_ok h, List.append_nil], Or.inl rfl⟩
  | error e =>
    rw [run_of_error h]
    split
    · exact ⟨_, h, rfl, Or.inr ⟨_, rfl⟩⟩
    · exact ⟨_, h, rfl, Or.inr ⟨_, rfl⟩⟩

/-- If a run has failed, only that is told after its course. -/
theorem Course.lintings_run {steps : List Step} {result : Except RunError UInt8}
    (h : o.Course disk args steps result) : lintings (o.run disk args).2 = lintings steps := by
  obtain ⟨steps', result', ending, h', hsteps, hending⟩ := exists_run o disk args
  obtain ⟨rfl, rfl⟩ := h.unique h'
  rw [hsteps, lintings_append]
  rcases hending with rfl | ⟨event, rfl⟩ <;> exact List.append_nil _

theorem run_withModules (hpreloaded : args.preloaded.isSome = true) (here bridge : ModuleStrategy)
    (load : String → Except RunError BuilderConfig) :
    (o.withModules here bridge load).run disk args = o.run disk args := by
  obtain ⟨path, hpath⟩ := Option.isSome_iff_exists.mp hpreloaded
  have hevaluate : ∀ root, (o.withModules here bridge load).evaluate disk root args =
      o.evaluate disk root args := by
    intro root
    unfold evaluate
    rw [hpath]
  have hexecute : (o.withModules here bridge load).execute disk args = o.execute disk args := by
    unfold execute
    simp only [hevaluate]
    rfl
  unfold run
  rw [hexecute]

/-- The exit code of a run that fails. -/
theorem code_of_error {steps : List Step} {e : RunError} (h : o.Course disk args steps (.error e)) :
    ((o.run disk args).1 = 0 ∨ (o.run disk args).1 = 1) ∧
      ((o.run disk args).1 = 0 ↔ args.list = true ∧ e = .noPlugins) := by
  rw [run_of_error h]
  split
  · rename_i hlist
    exact ⟨Or.inl rfl, iff_of_true rfl hlist⟩
  · rename_i hlist
    exact ⟨Or.inr rfl, iff_of_false (by decide : (1 : UInt8) ≠ 0) hlist⟩

/-- The exit code of a run that has not been handed over. -/
theorem run_code (hown : ∀ code, ¬ o.Delegates disk args code) :
    ((o.run disk args).1 = 0 ∨ (o.run disk args).1 = 1) ∧
      ((o.run disk args).1 = 0 ↔
        args.list = true ∧ (∀ e, o.Fails disk args e → e = .noPlugins) ∨
          ∃ report, o.Reports disk args report ∧
            (report.hasErrors = false ∨ args.reportOnly = true)) := by
  obtain ⟨steps, result, h⟩ := exists_course o disk args
  cases result with
  | error e =>
    obtain ⟨hcode, hzero⟩ := code_of_error h
    refine ⟨hcode, hzero.trans ⟨fun ⟨hlist, he⟩ => Or.inl ⟨hlist, ?_⟩, ?_⟩⟩
    · rintro e' ⟨steps', h'⟩
      cases (h.unique h').1
      exact he
    · rintro (⟨hlist, honly⟩ | ⟨report, hreports, -⟩)
      · exact ⟨hlist, honly e ⟨steps, h⟩⟩
      · obtain ⟨steps', h'⟩ := hreports.course
        cases (h.unique h').1
  | ok code =>
    have hfails : ∀ e, ¬ o.Fails disk args e := by
      rintro e ⟨steps', h'⟩
      cases (h.unique h').1
    rw [run_of_ok h]
    rcases h.ends with hdelegates | ⟨-, -, -, -, -, ⟨hlist, rfl⟩ | ⟨hlist, report, hreports, rfl⟩⟩
    · exact absurd hdelegates (hown code)
    · exact ⟨Or.inl rfl, iff_of_true rfl (Or.inl ⟨hlist, fun e he => absurd he (hfails e)⟩)⟩
    · refine ⟨exitCode_cases _ _, (exitCode_eq_zero_iff _ _).trans ⟨fun hclean => ?_, ?_⟩⟩
      · exact Or.inr ⟨report, hreports, hclean⟩
      · rintro (⟨hlist', -⟩ | ⟨report', hreports', hclean'⟩)
        · rw [hlist] at hlist'
          cases hlist'
        · obtain ⟨steps', h'⟩ := hreports'.course
          have hcode := Except.ok.inj (h.unique h').1
          exact (exitCode_eq_zero_iff _ _).mp
            (hcode.trans ((exitCode_eq_zero_iff _ _).mpr hclean'))

theorem run_finishes (hown : ∀ code, ¬ o.Delegates disk args code) :
    ∃ before event, (o.run disk args).2 = before ++ [.tell event] ∧ event.isFinal = true ∧
      finalEvents before = [] := by
  obtain ⟨steps, result, h⟩ := exists_course o disk args
  cases result with
  | ok code =>
    rw [run_of_ok h]
    rcases h.ends with hdelegates | ⟨before, event, hsteps, hfinal, hbefore, -⟩
    · exact absurd hdelegates (hown code)
    · exact ⟨before, event, hsteps, hfinal, hbefore⟩
  | error e =>
    rw [run_of_error h]
    split
    · exact ⟨steps, .noLinters, rfl, rfl, h.finalEvents_eq⟩
    · exact ⟨steps, .failed e args.verbose, rfl, rfl, h.finalEvents_eq⟩

/-- Every run is allowed. -/
theorem run_allowed (o : Orchestrator) (disk : Disk) (args : RunArgs) :
    o.Allowed disk args (o.run disk args).1 (o.run disk args).2 := by
  obtain ⟨steps, result, ending, h, hsteps, hending⟩ := exists_run o disk args
  have hevaluations : evaluations (o.run disk args).2 = evaluations steps := by
    rw [hsteps, evaluations_append]
    rcases hending with rfl | ⟨event, rfl⟩ <;> exact List.append_nil _
  have hdiscoveries : discoveries (o.run disk args).2 = discoveries steps := by
    rw [hsteps, discoveries_append]
    rcases hending with rfl | ⟨event, rfl⟩ <;> exact List.append_nil _
  have hlintings : lintings (o.run disk args).2 = lintings steps := by
    rw [hsteps, lintings_append]
    rcases hending with rfl | ⟨event, rfl⟩ <;> exact List.append_nil _
  constructor
  case handedOver =>
    intro hpreloaded
    rw [hevaluations]
    exact ⟨h.evaluations_eq hpreloaded, run_withModules hpreloaded⟩
  case discoversOnce =>
    intro specifiers hmem
    rw [hdiscoveries] at hmem ⊢
    exact h.of_mem_discoveries hmem
  case discovers =>
    intro specifiers
    rw [hdiscoveries]
    exact h.mem_discoveries_iff
  case lintsOnce =>
    intro linting hmem
    rw [hlintings] at hmem ⊢
    exact h.of_mem_lintings hmem
  case lintsBuilt =>
    intro root evaluation builder loaded hprepares hbuilt linting hmem
    rw [hlintings] at hmem
    exact h.plugins_eq hprepares hbuilt hmem
  case delegated =>
    intro code hdelegates
    obtain ⟨steps', h', htold⟩ := hdelegates.course
    rw [run_of_ok h']
    exact ⟨rfl, htold⟩
  case finishes => exact run_finishes
  case code_eq => exact run_code

end Orchestrator

end LintFront
