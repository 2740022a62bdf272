import LintFront.Run.Basic

/-!
# The course of a run

A run goes through its stages in order: it evaluates the module of the project, resolves the
configuration, gathers the linters, and has the engine look at the files. Each stage may fail, and
a module may hand the whole run over to another program. The courses that are open to a run are
listed here, each with its steps and its result; every run takes one of them and no other.

* `Work.Takes`: the steps and the result of work.
* `Orchestrator.Evaluates`, `Orchestrator.Gathers`, `Orchestrator.Course`: what the stages may do.
* `Orchestrator.Course.takes`, `Orchestrator.exists_course`: a run takes one course.
* `Orchestrator.Course.unique`, `Orchestrator.Course.of_prepares`: it takes no other.
-/

namespace LintFront

/-! ## Work -/

namespace Work

variable {α β : Type} {steps first rest : List Step}

/-- Work takes some steps and comes to a result, whatever has been done before it. -/
def Takes (w : Work α) (steps : List Step) (result : Except RunError α) : Prop :=
  ∀ before, w.run.run before = (result, before ++ steps)

theorem Takes.unique {w : Work α} {steps' : List Step} {result result' : Except RunError α}
    (h : w.Takes steps result) (h' : w.Takes steps' result') :
    result = result' ∧ steps = steps' := by
  have heq := (h []).symm.trans (h' [])
  rw [List.nil_append, List.nil_append] at heq
  exact Prod.mk.inj heq

theorem takes_known (result : Except RunError α) : (known result).Takes [] result := by
  intro before
  rw [List.append_nil]
  rfl

theorem takes_pure (a : α) : (pure a : Work α).Takes [] (.ok a) := takes_known (.ok a)

theorem takes_throw (e : RunError) : (throw e : Work α).Takes [] (.error e) :=
  takes_known (.error e)

theorem takes_step (s : Step) : (step s).Takes [s] (.ok ()) := fun _ => rfl

theorem Takes.bind {w : Work α} {f : α → Work β} {a : α} {result : Except RunError β}
    (h : w.Takes first (.ok a)) (hf : (f a).Takes rest result) :
    (w >>= f).Takes (first ++ rest) result := by
  intro before
  have hrun : (w >>= f).run.run before = (f a).run.run (before ++ first) := by
    simp only [ExceptT.run_bind, StateT.run_bind, h before]
    rfl
  rw [hrun, hf, List.append_assoc]

theorem Takes.bind_error {w : Work α} {f : α → Work β} {e : RunError}
    (h : w.Takes steps (.error e)) : (w >>= f).Takes steps (.error e) := by
  intro before
  simp only [ExceptT.run_bind, StateT.run_bind, h before]
  rfl

theorem takes_ask (s : Step) (result : Except RunError α) : (ask s result).Takes [s] result :=
  (takes_step s).bind (takes_known result)

theorem takes_when (condition : Bool) (event : Event) :
    (if condition = true then tell event else pure ()).Takes
      (if condition = true then [.tell event] else []) (.ok ()) := by
  cases condition with
  | false => exact takes_pure ()
  | true => exact takes_step (.tell event)

theorem takes_tells {γ : Type} (event : γ → Event) (list : List γ) :
    (forIn list PUnit.unit fun x _ => do
        tell (event x)
        pure (ForInStep.yield PUnit.unit)).Takes (list.map fun x => .tell (event x)) (.ok ()) := by
  induction list with
  | nil => exact takes_pure _
  | cons x rest ih =>
    rw [List.forIn_cons]
    have hhead : (tell (event x) >>= fun _ =>
        (pure (ForInStep.yield PUnit.unit) : Work (ForInStep PUnit))).Takes
          [.tell (event x)] (.ok (.yield PUnit.unit)) :=
      (takes_step (.tell (event x))).bind (f := fun _ => pure (ForInStep.yield PUnit.unit))
        (takes_pure _)
    exact hhead.bind ih

end Work

namespace Orchestrator

variable {o : Orchestrator} {disk : Disk} {args : RunArgs} {root : String}

/-! ## The stages -/

/-- What becomes of the module of a project, with the steps that it takes. -/
inductive Evaluates (o : Orchestrator) (disk : Disk) (args : RunArgs) (root : String) :
    List Step → Except RunError ModuleOutcome → Prop
  /-- A value that has been handed over counts as the value of the module. -/
  | handedOver {path : String} (h : args.preloaded = some path) :
    Evaluates o disk args root [] ((readPreloaded disk path).map .loaded)
  | lost {e : RunError} (h : args.preloaded = none)
    (hlocate : o.resolver.locateModule disk root args.config = .error e) :
    Evaluates o disk args root [] (.error e)
  | absent (h : args.preloaded = none)
    (hlocate : o.resolver.locateModule disk root args.config = .ok none) :
    Evaluates o disk args root [] (.ok (.loaded {}))
  | evaluated {path : String} (h : args.preloaded = none)
    (hlocate : o.resolver.locateModule disk root args.config = .ok (some path)) :
    Evaluates o disk args root [.evaluate path] (o.strategy path)

/-- The specifiers of the plugins that a run asks for: those of the command line if there are any,
else the configured ones. -/
def requested (args : RunArgs) (config : ResolvedConfig) : List String :=
  match args.plugins with
  | some plugins => dedupe plugins
  | none => config.plugins

/-- What becomes of the linters of a run, with the steps that it takes. -/
inductive Gathers (o : Orchestrator) (args : RunArgs) (builder : BuilderConfig)
    (config : ResolvedConfig) : List Step → Except RunError Gathering → Prop
  | built (h : builder.hasLinters = true) :
    Gathers o args builder config []
      (.ok { registry := LinterRegistry.registerAll {} builder.linters, config })
  | unasked (h : builder.hasLinters = false) (hnone : requested args config = []) :
    Gathers o args builder config [] (.ok { config })
  | undiscovered {e : RunError} (h : builder.hasLinters = false)
    (hsome : requested args config ≠ [])
    (hfound : o.engine.discover (requested args config) args.verbose = .error e) :
    Gathers o args builder config [.discover (requested args config) args.verbose] (.error e)
  /-- The presets that come with the linters may be no configurations. -/
  | discovered {found : Discovery} (h : builder.hasLinters = false)
    (hsome : requested args config ≠ [])
    (hfound : o.engine.discover (requested args config) args.verbose = .ok found) :
    Gathers o args builder config
      (.discover (requested args config) args.verbose ::
        found.failures.map fun failure => .tell (.pluginFailure failure))
      ((config.applyPresets found.presets).map fun extended =>
        { registry := LinterRegistry.registerAll {} found.linters
          plugins := requested args config
          config := extended
          bundles := found.bundles })

/-- The steps with which a resolved configuration is announced. -/
def announcement (args : RunArgs) (loaded : Loaded) : List Step :=
  if args.verbose = true then [.tell (.sources loaded.sources)] else []

/-- A run gets as far as its linters: the module is evaluated and the configuration resolved. -/
structure Prepares (o : Orchestrator) (disk : Disk) (args : RunArgs) (root : String)
    (evaluation : List Step) (builder : BuilderConfig) (loaded : Loaded) : Prop where
  root_eq : projectRoot disk args.project = .ok root
  evaluates : o.Evaluates disk args root evaluation (.ok (.loaded builder))
  resolve_eq : o.resolver.resolve disk root args.config = .ok loaded

/-- What becomes of a run whose linters have been gathered or not, with the steps that it takes. -/
inductive Closes (o : Orchestrator) (args : RunArgs) (root : String) (builder : BuilderConfig) :
    Except RunError Gathering → List Step → Except RunError UInt8 → Prop
  | ungathered {e : RunError} : Closes o args root builder (.error e) [] (.error e)
  | empty {g : Gathering} (h : g.registry.isEmpty = true) :
    Closes o args root builder (.ok g) [] (.error .noPlugins)
  | listed {g : Gathering} (h : g.registry.isEmpty = false) (hlist : args.list = true) :
    Closes o args root builder (.ok g) [.tell (.linters g.registry)] (.ok 0)
  | unlinted {g : Gathering} {e : RunError} (h : g.registry.isEmpty = false)
    (hlist : args.list = false)
    (hrun : o.engine.run (options root args builder g) g.registry = .error e) :
    Closes o args root builder (.ok g)
      [.lint (options root args builder g) g.registry] (.error e)
  | linted {g : Gathering} {report : RunReport} (h : g.registry.isEmpty = false)
    (hlist : args.list = false)
    (hrun : o.engine.run (options root args builder g) g.registry = .ok report) :
    Closes o args root builder (.ok g)
      [.lint (options root args builder g) g.registry, .tell (.results (o.engine.format report))]
      (.ok (exitCode report.hasErrors args.reportOnly))

/-- The courses that a run may take, each with its steps and its result. -/
inductive Course (o : Orchestrator) (disk : Disk) (args : RunArgs) :
    List Step → Except RunError UInt8 → Prop
  | lost {e : RunError} (hroot : projectRoot disk args.project = .error e) :
    Course o disk args [] (.error e)
  | unevaluated {root : String} {evaluation : List Step} {e : RunError}
    (hroot : projectRoot disk args.project = .ok root)
    (hmodule : o.Evaluates disk args root evaluation (.error e)) :
    Course o disk args evaluation (.error e)
  | delegated {root : String} {evaluation : List Step} {code : UInt8}
    (hroot : projectRoot disk args.project = .ok root)
    (hmodule : o.Evaluates disk args root evaluation (.ok (.delegated code))) :
    Course o disk args evaluation (.ok code)
  | unresolved {root : String} {evaluation : List Step} {builder : BuilderConfig} {e : RunError}
    (hroot : projectRoot disk args.project = .ok root)
    (hmodule : o.Evaluates disk args root evaluation (.ok (.loaded builder)))
    (hresolve : o.resolver.resolve disk root args.config = .error e) :
    Course o disk args evaluation (.error e)
  | prepared {root : String} {evaluation gathering closing : List Step} {builder : BuilderConfig}
    {loaded : Loaded} {gathered : Except RunError Gathering} {result : Except RunError UInt8}
    (h : o.Prepares disk args root evaluation builder loaded)
    (hgather : o.Gathers args builder loaded.config gathering gathered)
    (hclose : o.Closes args root builder gathered closing result) :
    Course o disk args (evaluation ++ (announcement args loaded ++ (gathering ++ closing))) result

/-! ## What the stages do -/

theorem exists_evaluates (o : Orchestrator) (disk : Disk) (args : RunArgs) (root : String) :
    ∃ steps result, o.Evaluates disk args root steps result := by
  cases h : args.preloaded with
  | some path => exact ⟨_, _, .handedOver h⟩
  | none =>
    cases hlocate : o.resolver.locateModule disk root args.config with
    | error e => exact ⟨_, _, .lost h hlocate⟩
    | ok found =>
      cases found with
      | none => exact ⟨_, _, .absent h hlocate⟩
      | some path => exact ⟨_, _, .evaluated h hlocate⟩

theorem Evaluates.takes {steps : List Step} {result : Except RunError ModuleOutcome}
    (h : o.Evaluates disk args root steps result) :
    (o.evaluate disk root args).Takes steps result := by
  unfold evaluate
  cases h with
  | handedOver h =>
    rw [h]
    exact Work.takes_known _
  | lost h hlocate =>
    rw [h, hlocate]
    exact (Work.takes_known (.error _)).bind_error
  | absent h hlocate =>
    rw [h, hlocate]
    exact (Work.takes_known (.ok none)).bind (Work.takes_pure _)
  | evaluated h hlocate =>
    rw [h, hlocate]
    exact (Work.takes_known (.ok (some _))).bind (Work.takes_ask _ _)

theorem exists_gathers (o : Orchestrator) (args : RunArgs) (builder : BuilderConfig)
    (config : ResolvedConfig) : ∃ steps result, o.Gathers args builder config steps result := by
  cases h : builder.hasLinters with
  | true => exact ⟨_, _, .built h⟩
  | false =>
    by_cases hnone : requested args config = []
    · exact ⟨_, _, .unasked h hnone⟩
    · cases hfound : o.engine.discover (requested args config) args.verbose with
      | error e => exact ⟨_, _, .undiscovered h hnone hfound⟩
      | ok found => exact ⟨_, _, .discovered h hnone hfound⟩

theorem gather_eq (o : Orchestrator) (args : RunArgs) (builder : BuilderConfig)
    (config : ResolvedConfig) :
    o.gather args builder config =
      if builder.hasLinters = true then
        pure { registry := LinterRegistry.registerAll {} builder.linters, config }
      else if requested args config = [] then pure { config }
      else o.discover args config (requested args config) := by
  simp only [← List.isEmpty_iff]
  rfl

theorem Gathers.takes {builder : BuilderConfig} {config : ResolvedConfig} {steps : List Step}
    {result : Except RunError Gathering} (h : o.Gathers args builder config steps result) :
    (o.gather args builder config).Takes steps result := by
  rw [gather_eq]
  cases h with
  | built h =>
    rw [if_pos h]
    exact Work.takes_pure _
  | unasked h hnone =>
    rw [if_neg (by simp [h]), if_pos hnone]
    exact Work.takes_pure _
  | undiscovered h hsome hfound =>
    rw [if_neg (by simp [h]), if_neg hsome, discover, hfound]
    exact (Work.takes_ask _ (.error _)).bind_error
  | @discovered found h hsome hfound =>
    rw [if_neg (by simp [h]), if_neg hsome, discover, hfound]
    have htold := Work.takes_tells .pluginFailure found.failures
    refine (Work.takes_ask _ (.ok found)).bind ?_
    rw [← List.append_nil (List.map _ _)]
    refine htold.bind ?_
    cases config.applyPresets found.presets with
    | error e => exact (Work.takes_known (.error e)).bind_error
    | ok extended => exact (Work.takes_known (.ok extended)).bind (Work.takes_pure _)

theorem exists_closes (o : Orchestrator) (args : RunArgs) (root : String) (builder : BuilderConfig)
    (gathered : Except RunError Gathering) :
    ∃ steps result, o.Closes args root builder gathered steps result := by
  cases gathered with
  | error e => exact ⟨_, _, .ungathered⟩
  | ok g =>
    cases h : g.registry.isEmpty with
    | true => exact ⟨_, _, .empty h⟩
    | false =>
      cases hlist : args.list with
      | true => exact ⟨_, _, .listed h hlist⟩
      | false =>
        cases hrun : o.engine.run (options root args builder g) g.registry with
        | error e => exact ⟨_, _, .unlinted h hlist hrun⟩
        | ok report => exact ⟨_, _, .linted h hlist hrun⟩

/-- The end of a run that has gathered its linters. -/
def close (o : Orchestrator) (args : RunArgs) (root : String) (builder : BuilderConfig)
    (g : Gathering) : Work UInt8 :=
  if g.registry.isEmpty = true then throw .noPlugins
  else if args.list = true then Work.tell (.linters g.registry) >>= fun _ => pure 0
  else
    Work.ask (.lint (options root args builder g) g.registry)
        (o.engine.run (options root args builder g) g.registry) >>= fun report =>
      Work.tell (.results (o.engine.format report)) >>= fun _ =>
        pure (exitCode report.hasErrors args.reportOnly)

/-- The stages of a run after the module has been evaluated. -/
theorem lint_eq (o : Orchestrator) (disk : Disk) (root : String) (args : RunArgs)
    (builder : BuilderConfig) :
    o.lint disk root args builder =
      Work.known (o.resolver.resolve disk root args.config) >>= fun loaded =>
        (if args.verbose = true then Work.tell (.sources loaded.sources) else pure ()) >>= fun _ =>
          o.gather args builder loaded.config >>= o.close args root builder := by
  unfold lint
  congr 1
  funext loaded
  cases args.verbose with
  | false => rfl
  | true => rfl

theorem Closes.takes {builder : BuilderConfig} {g : Gathering} {steps : List Step}
    {result : Except RunError UInt8} (h : o.Closes args root builder (.ok g) steps result) :
    (o.close args root builder g).Takes steps result := by
  unfold close
  cases h with
  | empty h =>
    rw [if_pos h]
    exact Work.takes_throw _
  | listed h hlist =>
    rw [if_neg (by simp [h]), if_pos hlist]
    exact (Work.takes_step _).bind (f := fun _ => pure 0) (Work.takes_pure 0)
  | unlinted h hlist hrun =>
    rw [if_neg (by simp [h]), if_neg (by simp [hlist]), hrun]
    exact (Work.takes_ask _ (.error _)).bind_error
  | @linted _ report h hlist hrun =>
    rw [if_neg (by simp [h]), if_neg (by simp [hlist]), hrun]
    refine (Work.takes_ask _ (.ok report)).bind ?_
    exact (Work.takes_step _).bind (f := fun _ => pure _) (Work.takes_pure _)

/-! ## A run takes one course -/

theorem exists_course (o : Orchestrator) (disk : Disk) (args : RunArgs) :
    ∃ steps result, o.Course disk args steps result := by
  cases hroot : projectRoot disk args.project with
  | error e => exact ⟨_, _, .lost hroot⟩
  | ok root =>
    obtain ⟨evaluation, outcome, hmodule⟩ := exists_evaluates o disk args root
    rcases outcome with e | outcome
    · exact ⟨_, _, .unevaluated hroot hmodule⟩
    · rcases outcome with builder | code
      · cases hresolve : o.resolver.resolve disk root args.config with
        | error e => exact ⟨_, _, .unresolved hroot hmodule hresolve⟩
        | ok loaded =>
          obtain ⟨gathering, gathered, hgather⟩ := exists_gathers o args builder loaded.config
          obtain ⟨closing, result, hclose⟩ := exists_closes o args root builder gathered
          exact ⟨_, _, .prepared ⟨hroot, hmodule, hresolve⟩ hgather hclose⟩
      · exact ⟨_, _, .delegated hroot hmodule⟩

/-- The steps of a run up to its exit code or its failure are those of its course. -/
theorem Course.takes {steps : List Step} {result : Except RunError UInt8}
    (h : o.Course disk args steps result) : (o.execute disk args).Takes steps result := by
  unfold execute
  cases h with
  | lost hroot =>
    rw [hroot]
    exact (Work.takes_known (.error _)).bind_error
  | @unevaluated root _ _ hroot hmodule =>
    rw [hroot]
    exact (Work.takes_known (.ok root)).bind hmodule.takes.bind_error
  | @delegated root _ _ hroot hmodule =>
    rw [hroot, ← List.append_nil steps]
    exact (Work.takes_known (.ok root)).bind (hmodule.takes.bind (Work.takes_pure _))
  | @unresolved root _ builder _ hroot hmodule hresolve =>
    rw [hroot, ← List.append_nil steps]
    refine (Work.takes_known (.ok root)).bind (hmodule.takes.bind ?_)
    change (o.lint disk root args builder).Takes [] _
    rw [lint_eq, hresolve]
    exact (Work.takes_known (.error _)).bind_error
  | @prepared root _ _ _ builder loaded gathered _ h hgather hclose =>
    rw [h.root_eq]
    refine (Work.takes_known (.ok root)).bind (h.evaluates.takes.bind ?_)
    change (o.lint disk root args builder).Takes _ _
    rw [lint_eq, h.resolve_eq]
    refine (Work.takes_known (.ok loaded)).bind ((Work.takes_when _ _).bind ?_)
    cases gathered with
    | error e =>
      cases hclose
      rw [List.append_nil]
      exact hgather.takes.bind_error
    | ok g => exact hgather.takes.bind hclose.takes

theorem Course.unique {steps steps' : List Step} {result result' : Except RunError UInt8}
    (h : o.Course disk args steps result) (h' : o.Course disk args steps' result') :
    result = result' ∧ steps = steps' := h.takes.unique h'.takes

/-- The course of a run that gets as far as its linters. -/
theorem Course.of_prepares {steps evaluation : List Step} {result : Except RunError UInt8}
    {builder : BuilderConfig} {loaded : Loaded} (h : o.Course disk args steps result)
    (hprepares : o.Prepares disk args root evaluation builder loaded) :
    ∃ gathering gathered closing, o.Gathers args builder loaded.config gathering gathered ∧
      o.Closes args root builder gathered closing result ∧
      steps = evaluation ++ (announcement args loaded ++ (gathering ++ closing)) := by
  obtain ⟨gathering, gathered, hgather⟩ := exists_gathers o args builder loaded.config
  obtain ⟨closing, result', hclose⟩ := exists_closes o args root builder gathered
  obtain ⟨rfl, rfl⟩ := h.unique (.prepared hprepares hgather hclose)
  exact ⟨gathering, gathered, closing, hgather, hclose, rfl⟩

end Orchestrator

end LintFront
