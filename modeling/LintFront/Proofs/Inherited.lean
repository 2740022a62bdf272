import LintFront.Proofs.Allowed
import LintFront.Proofs.Growth

/-!
# Inherited presets

A run that asks for plugins goes through the names that its configuration inherits. A name under
which nothing is published is left to the engine, and what is published under the others is brought
in, in order. If one of these is no configuration, the run is over before the engine looks at any
file.

* `published?`: what is published under a name.
* `applyPresets_eq_error_iff`: which preset fails.
* `ResolvedConfig.Completed`: a configuration with the presets that it inherits.
* `Orchestrator.Finds`: a run that asks for plugins, and what it is told.
* `ResolvedConfig.applyPresets_accounted`: what becomes of every name.
-/

namespace LintFront

/-! ## What is published -/

/-- What plugins publish under a name, read as a configuration. -/
def published? (presets : Table Value) (name : String) : Option (Read Configuration) :=
  (presets.find? name).map Configuration.ofValue

/-- The presets under some names, in order. What is no configuration is left out. -/
def presetsUnder (presets : Table Value) (names : List String) : List (String × Configuration) :=
  names.filterMap fun name =>
    match published? presets name with
    | some (.ok preset) => some (name, preset)
    | _ => none

/-- Whatever is published under some names is a configuration. -/
def AllRead (presets : Table Value) (names : List String) : Prop :=
  ∀ name ∈ names, ∀ cause, published? presets name ≠ some (.error cause)

/-- A configuration without the plugins and the presets that it refers to. -/
def Configuration.unreferring (c : Configuration) : Configuration :=
  { c with plugins := none, inherited := none }

variable {presets : Table Value} {names : List String} {name : String} {c d : ResolvedConfig}
  {cause : ReadFault} {e : RunError}

theorem has_iff_published? : presets.has name = true ↔ (published? presets name).isSome := by
  rw [Table.has, published?, Option.isSome_map]

theorem mem_presetsUnder {preset : Configuration} :
    (name, preset) ∈ presetsUnder presets names ↔
      name ∈ names ∧ published? presets name = some (.ok preset) := by
  rw [presetsUnder, List.mem_filterMap]
  constructor
  · rintro ⟨entry, hentry, heq⟩
    split at heq
    · rename_i hread
      cases heq
      exact ⟨hentry, hread⟩
    · cases heq
  · rintro ⟨hname, hread⟩
    exact ⟨name, hname, by rw [hread]⟩

/-- Presets are read from values, so their tables hold each name once. -/
theorem wellFormed_of_mem_presetsUnder {entry : String × Configuration}
    (h : entry ∈ presetsUnder presets names) : entry.2.WellFormed := by
  obtain ⟨v, -, hv⟩ := Option.map_eq_some_iff.mp (mem_presetsUnder.mp h).2
  exact Configuration.wellFormed_of_read .value v.toTree entry.2 hv

/-! ## One name after the other -/

theorem applyPresets_cons (presets : Table Value) (name : String) (rest : List String)
    (c : ResolvedConfig) :
    applyPresets presets (name :: rest) c =
      match published? presets name with
      | none => applyPresets presets rest c
      | some (.error cause) => .error (.config (.invalidPreset name cause))
      | some (.ok preset) => applyPresets presets rest (c.mergePreset name preset) := by
  rw [applyPresets, published?]
  cases presets.find? name with
  | none => rfl
  | some v =>
    dsimp only [Option.map_some]
    cases Configuration.ofValue v <;> rfl

theorem applyPresets_eq_ok_iff :
    applyPresets presets names c = .ok d ↔
      AllRead presets names ∧ d = c.mergePresets (presetsUnder presets names) := by
  induction names generalizing c with
  | nil =>
    rw [applyPresets, Except.ok.injEq, eq_comm]
    exact (and_iff_right (by simp [AllRead])).symm
  | cons name rest ih =>
    rw [applyPresets_cons, presetsUnder, List.filterMap_cons, AllRead, List.forall_mem_cons]
    cases hread : published? presets name with
    | none => exact ih.trans (and_congr_left' (and_iff_right (by simp)).symm)
    | some outcome =>
      cases outcome with
      | error cause => exact iff_of_false (by simp) fun h => h.1.1 cause rfl
      | ok preset => exact ih.trans (and_congr_left' (and_iff_right (by simp)).symm)

/-- The first preset that is no configuration fails. -/
theorem applyPresets_eq_error_iff :
    applyPresets presets names c = .error e ↔
      ∃ before name after cause, names = before ++ name :: after ∧ AllRead presets before ∧
        published? presets name = some (.error cause) ∧
        e = .config (.invalidPreset name cause) := by
  induction names generalizing c with
  | nil => simp [applyPresets]
  | cons head rest ih =>
    -- A name that is passed over goes before the one that fails.
    have hpass (hread : ∀ cause, published? presets head ≠ some (.error cause)) :
        (∃ before name after cause, rest = before ++ name :: after ∧ AllRead presets before ∧
          published? presets name = some (.error cause) ∧
          e = .config (.invalidPreset name cause)) ↔
        ∃ before name after cause, head :: rest = before ++ name :: after ∧
          AllRead presets before ∧ published? presets name = some (.error cause) ∧
          e = .config (.invalidPreset name cause) := by
      constructor
      · rintro ⟨before, name, after, cause, rfl, hbefore, hfail⟩
        exact ⟨head :: before, name, after, cause, rfl,
          List.forall_mem_cons.mpr ⟨hread, hbefore⟩, hfail⟩
      · rintro ⟨before, name, after, cause, hsplit, hbefore, hfail⟩
        cases before with
        | nil =>
          cases hsplit
          exact absurd hfail.1 (hread cause)
        | cons first before =>
          cases hsplit
          exact ⟨before, name, after, cause, rfl, (List.forall_mem_cons.mp hbefore).2, hfail⟩
    rw [applyPresets_cons]
    split
    · rename_i hnone
      exact ih.trans (hpass fun cause => by simp [hnone])
    · rename_i cause hread
      constructor
      · rintro ⟨⟩
        exact ⟨[], head, rest, cause, rfl, by simp [AllRead], hread, rfl⟩
      · rintro ⟨before, name, after, cause', hsplit, hbefore, hfail, rfl⟩
        cases before with
        | nil =>
          cases hsplit
          rw [hread] at hfail
          cases hfail
          rfl
        | cons first before =>
          cases hsplit
          exact absurd hread (hbefore head List.mem_cons_self cause)
    · rename_i preset hread
      exact ih.trans (hpass fun cause => by simp [hread])

theorem applyPresets_fails_iff :
    (∃ e, applyPresets presets names c = .error e) ↔
      ∃ name ∈ names, ∃ cause, published? presets name = some (.error cause) := by
  constructor
  · rintro ⟨e, he⟩
    obtain ⟨before, name, after, cause, rfl, -, hfail, -⟩ := applyPresets_eq_error_iff.mp he
    exact ⟨name, by simp, cause, hfail⟩
  · rintro ⟨name, hname, cause, hfail⟩
    cases houtcome : applyPresets presets names c with
    | error e => exact ⟨e, rfl⟩
    | ok d => exact absurd hfail ((applyPresets_eq_ok_iff.mp houtcome).1 name hname cause)

/-- What a preset refers to does not come in with it. -/
theorem applyPresets_cons_unreferring (presets : Table Value) (name : String) (rest : List String)
    (c : ResolvedConfig) :
    applyPresets presets (name :: rest) c =
      match (published? presets name).map (Except.map Configuration.unreferring) with
      | none => applyPresets presets rest c
      | some (.error cause) => .error (.config (.invalidPreset name cause))
      | some (.ok preset) => applyPresets presets rest (c.mergePreset name preset) := by
  rw [applyPresets_cons]
  cases published? presets name with
  | none => rfl
  | some outcome => cases outcome <;> rfl

theorem applyPresets_congr {presets' : Table Value}
    (h : ∀ name ∈ names, (published? presets' name).map (Except.map Configuration.unreferring) =
      (published? presets name).map (Except.map Configuration.unreferring)) :
    applyPresets presets' names c = applyPresets presets names c := by
  induction names generalizing c with
  | nil => rfl
  | cons name rest ih =>
    obtain ⟨hname, hrest⟩ := List.forall_mem_cons.mp h
    rw [applyPresets_cons_unreferring, applyPresets_cons_unreferring, hname]
    split
    · exact ih hrest
    · rfl
    · exact ih hrest

namespace ResolvedConfig

/-! ## What presets add -/

variable {adopted : List (String × Configuration)}

/-- A list of a configuration with the lists of presets at its end. -/
theorem list_mergePresets (list : ResolvedConfig → List String)
    (added : Configuration → Option (List String))
    (hstep : ∀ c name preset,
      list (c.mergePreset name preset) = union (list c) ((added preset).getD []))
    (hc : (list c).Nodup) :
    list (c.mergePresets adopted) =
      (list c ++ adopted.flatMap fun entry => (added entry.2).getD []).eraseDups := by
  rw [← union_eq_eraseDups hc, List.flatMap_def, ← foldl_union, List.foldl_map]
  exact (List.foldl_hom list fun c entry => (hstep c entry.1 entry.2).symm).symm

theorem linterConfig_mergePresets (hc : (Value.object c.linterConfig).WellFormed)
    (hadopted : ∀ entry ∈ adopted, entry.2.WellFormed) :
    Value.object (c.mergePresets adopted).linterConfig =
      Value.deep (.object c.linterConfig)
        (adopted.map fun entry => optionsObject entry.2.linterConfig) := by
  have hoptions : ∀ w ∈ adopted.map fun entry => optionsObject entry.2.linterConfig,
      w.WellFormed := by
    intro w hw
    obtain ⟨entry, hentry, rfl⟩ := List.mem_map.mp hw
    exact wellFormed_optionsObject (hadopted entry hentry).linterConfig
  rw [← Value.foldl_merge hc hoptions, List.foldl_map]
  refine (List.foldl_hom (fun c : ResolvedConfig => Value.object c.linterConfig)
    fun c entry => ?_).symm
  exact Value.merge_object _ _

/-- A configuration with the presets that it inherits: the names that are not published stay, and
everything else is joined in the order of the names. -/
structure Completed (c : ResolvedConfig) (presets : Table Value) (d : ResolvedConfig) : Prop where
  inherited : d.inherited = c.inherited.filter fun name => !presets.has name
  linterConfig : Value.object d.linterConfig =
    Value.deep (.object c.linterConfig)
      ((presetsUnder presets c.inherited).map fun entry => optionsObject entry.2.linterConfig)
  included : d.included =
    (c.included ++ (presetsUnder presets c.inherited).flatMap fun entry =>
      entry.2.included.getD []).eraseDups
  excluded : d.excluded =
    (c.excluded ++ (presetsUnder presets c.inherited).flatMap fun entry =>
      entry.2.excluded.getD []).eraseDups
  extensions : d.extensions =
    (c.extensions ++ (presetsUnder presets c.inherited).flatMap fun entry =>
      entry.2.extensions.getD []).eraseDups
  plugins : d.plugins = c.plugins

theorem inherited_mergePresets (h : AllRead presets c.inherited) :
    (c.mergePresets (presetsUnder presets c.inherited)).inherited =
      c.inherited.filter fun name => !presets.has name := by
  rw [(grows_mergePresets c _).inherited]
  refine List.filter_congr fun name hname => ?_
  rw [Bool.eq_iff_iff, decide_eq_true_iff, Bool.not_eq_true', ← Bool.not_eq_true,
    has_iff_published?]
  refine not_congr ⟨?_, ?_⟩
  · intro htaken
    obtain ⟨entry, hentry, rfl⟩ := List.mem_map.mp htaken
    exact Option.isSome_of_eq_some (mem_presetsUnder.mp hentry).2
  · intro hpublished
    obtain ⟨outcome, hread⟩ := Option.isSome_iff_exists.mp hpublished
    cases outcome with
    | error cause => exact absurd hread (h name hname cause)
    | ok preset =>
      exact List.mem_map.mpr ⟨(name, preset), mem_presetsUnder.mpr ⟨hname, hread⟩, rfl⟩

theorem completed_of_applyPresets (hc : c.ListedOnce)
    (hoptions : (Value.object c.linterConfig).WellFormed) (h : c.applyPresets presets = .ok d) :
    c.Completed presets d := by
  obtain ⟨hread, rfl⟩ := applyPresets_eq_ok_iff.mp h
  exact
    { inherited := inherited_mergePresets hread
      linterConfig := linterConfig_mergePresets hoptions fun _ => wellFormed_of_mem_presetsUnder
      included := list_mergePresets (·.included) (·.included) (fun _ _ _ => rfl) hc.included
      excluded := list_mergePresets (·.excluded) (·.excluded) (fun _ _ _ => rfl) hc.excluded
      extensions := list_mergePresets (·.extensions) (·.extensions) (fun _ _ _ => rfl) hc.extensions
      plugins := (grows_mergePresets c _).plugins }

end ResolvedConfig

/-! ## Runs that ask for plugins -/

namespace Orchestrator

variable {o : Orchestrator} {disk : Disk} {args : RunArgs} {root : String}
  {builder : BuilderConfig} {loaded : Loaded} {found : Discovery}

/-- A run gets as far as its linters, asks the engine for plugins, and is told what they come
with. -/
structure Finds (o : Orchestrator) (disk : Disk) (args : RunArgs) (root : String)
    (builder : BuilderConfig) (loaded : Loaded) (found : Discovery) : Prop where
  prepares : ∃ evaluation, o.Prepares disk args root evaluation builder loaded
  unbuilt : builder.hasLinters = false
  asks : requested args loaded.config ≠ []
  discover_eq : o.engine.discover (requested args loaded.config) args.verbose = .ok found

/-- The linters of a run with a configuration that has its presets. -/
def gathering (args : RunArgs) (c : ResolvedConfig) (found : Discovery)
    (extended : ResolvedConfig) : Gathering where
  registry := LinterRegistry.registerAll {} found.linters
  plugins := requested args c
  config := extended
  bundles := found.bundles

theorem Gathers.eq_of_discover {config : ResolvedConfig} {steps : List Step}
    {gathered : Except RunError Gathering} (h : o.Gathers args builder config steps gathered)
    (hunbuilt : builder.hasLinters = false) (hasks : requested args config ≠ [])
    (hfound : o.engine.discover (requested args config) args.verbose = .ok found) :
    gathered = (config.applyPresets found.presets).map (gathering args config found) := by
  cases h with
  | built hbuilt =>
    rw [hunbuilt] at hbuilt
    cases hbuilt
  | unasked _ hnone => exact absurd hnone hasks
  | undiscovered _ _ herror =>
    rw [hfound] at herror
    cases herror
  | discovered _ _ hother =>
    rw [hfound] at hother
    cases hother
    rfl

theorem Closes.lintings_eq {g : Gathering} {closing : List Step} {result : Except RunError UInt8}
    (h : o.Closes args root builder (.ok g) closing result) :
    lintings closing =
      if g.registry.isEmpty = true ∨ args.list = true then []
      else [(options root args builder g, g.registry)] := by
  cases h with
  | empty hempty => exact (if_pos (Or.inl hempty)).symm
  | listed _ hlist => exact (if_pos (Or.inr hlist)).symm
  | unlinted hnonempty hlist =>
    rw [if_neg (by simp [hnonempty, hlist])]
    rfl
  | linted hnonempty hlist =>
    rw [if_neg (by simp [hnonempty, hlist])]
    rfl

/-- What the engine is given to look at the files, if it has been told of some plugins. -/
theorem Finds.exists_closes (h : o.Finds disk args root builder loaded found) :
    ∃ steps closing result, o.Course disk args steps result ∧ lintings steps = lintings closing ∧
      o.Closes args root builder
        ((loaded.config.applyPresets found.presets).map (gathering args loaded.config found))
        closing result := by
  obtain ⟨evaluation, hprepares⟩ := h.prepares
  obtain ⟨steps, result, hcourse⟩ := exists_course o disk args
  obtain ⟨_, gathered, closing, hgather, hclose, hlintings⟩ := hcourse.lintings_eq hprepares
  obtain rfl := hgather.eq_of_discover h.unbuilt h.asks h.discover_eq
  exact ⟨steps, closing, result, hcourse, hlintings, hclose⟩

/-- A preset that is no configuration ends the run before the engine looks at any file. -/
theorem Finds.run_of_error (h : o.Finds disk args root builder loaded found) {e : RunError}
    (he : loaded.config.applyPresets found.presets = .error e) :
    ∃ steps, o.run disk args = (1, steps ++ [.tell (.failed e args.verbose)]) ∧
      lintings steps = [] := by
  have hother : e ≠ .noPlugins := by
    obtain ⟨_, _, _, _, _, _, _, rfl⟩ := applyPresets_eq_error_iff.mp he
    simp
  obtain ⟨steps, closing, result, hcourse, hlintings, hclose⟩ := h.exists_closes
  rw [he] at hclose
  cases hclose
  exact ⟨steps, by rw [Orchestrator.run_of_error hcourse, if_neg (by simp [hother])], hlintings⟩

/-- If the engine looks at the files, it is told of the configuration with its presets. -/
theorem Finds.lintings_eq (h : o.Finds disk args root builder loaded found) {d : ResolvedConfig}
    (hd : loaded.config.applyPresets found.presets = .ok d) :
    lintings (o.run disk args).2 =
      if (LinterRegistry.registerAll {} found.linters).isEmpty = true ∨ args.list = true then []
      else
        [(options root args builder (gathering args loaded.config found d),
          LinterRegistry.registerAll {} found.linters)] := by
  obtain ⟨steps, closing, result, hcourse, hlintings, hclose⟩ := h.exists_closes
  rw [hd] at hclose
  rw [hcourse.lintings_run, hlintings]
  exact hclose.lintings_eq

end Orchestrator

/-! ## What becomes of the names -/

/-- Every name that a configuration inherits is accounted for: what is published under it is
brought in, or it is left to the engine, or the run is over. -/
structure ResolvedConfig.Accounted (c : ResolvedConfig) (presets : Table Value) : Prop where
  /-- The failure names the first preset that is no configuration. -/
  failure : ∀ e, c.applyPresets presets = .error e ↔
    ∃ before name after cause, c.inherited = before ++ name :: after ∧ AllRead presets before ∧
      published? presets name = some (.error cause) ∧ e = .config (.invalidPreset name cause)
  fails_iff : (∃ e, c.applyPresets presets = .error e) ↔
    ∃ name ∈ c.inherited, ∃ cause, published? presets name = some (.error cause)
  completed : ∀ d, c.applyPresets presets = .ok d → c.Completed presets d
  /-- It does not matter which plugins and presets the presets themselves name. -/
  unreferring : ∀ presets' : Table Value,
    (∀ name ∈ c.inherited,
      (published? presets' name).map (Except.map Configuration.unreferring) =
        (published? presets name).map (Except.map Configuration.unreferring)) →
    c.applyPresets presets' = c.applyPresets presets
  /-- The engine does not look at any file if a preset fails. -/
  stops : ∀ {o : Orchestrator} {disk : Disk} {args : RunArgs} {root : String}
    {builder : BuilderConfig} {loaded : Loaded} {found : Discovery},
    o.Finds disk args root builder loaded found → loaded.config = c → found.presets = presets →
    ∀ e, c.applyPresets presets = .error e → ∃ steps,
      o.run disk args = (1, steps ++ [.tell (.failed e args.verbose)]) ∧ lintings steps = []
  /-- Otherwise it is told of what has come out. -/
  goesOn : ∀ {o : Orchestrator} {disk : Disk} {args : RunArgs} {root : String}
    {builder : BuilderConfig} {loaded : Loaded} {found : Discovery},
    o.Finds disk args root builder loaded found → loaded.config = c → found.presets = presets →
    ∀ d, c.applyPresets presets = .ok d → lintings (o.run disk args).2 =
      if (LinterRegistry.registerAll {} found.linters).isEmpty = true ∨ args.list = true then []
      else
        [(Orchestrator.options root args builder (Orchestrator.gathering args c found d),
          LinterRegistry.registerAll {} found.linters)]

/-- Whatever plugins publish, every name that a resolved configuration inherits is accounted
for. -/
theorem ResolvedConfig.applyPresets_accounted (hc : c.ListedOnce)
    (hoptions : (Value.object c.linterConfig).WellFormed) (presets : Table Value) :
    c.Accounted presets where
  failure _ := applyPresets_eq_error_iff
  fails_iff := applyPresets_fails_iff
  completed _ := completed_of_applyPresets hc hoptions
  unreferring _ h := applyPresets_congr h
  stops := by
    rintro o disk args root builder loaded found h rfl rfl e he
    exact h.run_of_error he
  goesOn := by
    rintro o disk args root builder loaded found h rfl rfl d hd
    exact h.lintings_eq hd

/-- An engine whose plugins have one linter and publish some presets, in a run of its own. -/
def publishing (presets : Table Value) : Orchestrator where
  engine := {
    discover := fun _ _ => .ok { linters := [{ id := "size" }], presets }
    loadModule := fun _ => .ok {}
    run := fun _ _ => .ok {} }
  resolver := .plainResolver
  origin := .installed
  evaluateHere := fun _ => .ok (.loaded {})
  bridge := fun _ => .ok (.loaded {})

/-- A project that inherits a preset and a name that is left to the engine. -/
def inheritingProject : Disk where
  tree := .directory [("viola.json", .file (some (
    "\x7b'plugins': ['npm:house'], 'inherit': ['engine', 'style'], 'exclude': ['dist']\x7d")))]
  cwd := []

/-- A preset that refers to another one. -/
def stylePreset : Value := .object [
  ("exclude", .list [.text "out", .text "dist"]), ("inherit", .list [.text "size"]),
  ("linterConfig", .object [("quotes", .null)])]

theorem finds_publishing :
    ∃ loaded, loaded.config.inherited = ["engine", "style"] ∧ loaded.config.excluded = ["dist"] ∧
      ∀ presets, (publishing presets).Finds inheritingProject {} "/" {} loaded
        { linters := [{ id := "size" }], presets } := by
  have hloaded : passes (fun loaded => loaded.config.inherited == ["engine", "style"] &&
      loaded.config.excluded == ["dist"] && loaded.config.plugins == ["npm:house"])
      (Resolver.plainResolver.resolve inheritingProject "/" none) = true := by decide +kernel
  obtain ⟨loaded, hresolve, hchecks⟩ := exists_of_passes hloaded
  simp only [Bool.and_eq_true, beq_iff_eq] at hchecks
  obtain ⟨⟨hinherited, hexcluded⟩, hplugins⟩ := hchecks
  have hroot : passes (· == "/") (Orchestrator.projectRoot inheritingProject ".") = true := by
    decide +kernel
  obtain ⟨root, hroot, heq⟩ := exists_of_passes hroot
  obtain rfl := eq_of_beq heq
  have hmodule : passes Option.isNone
      (Resolver.plainResolver.locateModule inheritingProject "/" none) = true := by decide +kernel
  obtain ⟨path, hlocate, hnone⟩ := exists_of_passes hmodule
  obtain rfl := Option.isNone_iff_eq_none.mp hnone
  refine ⟨loaded, hinherited, hexcluded, fun presets =>
    ⟨⟨[], hroot, .absent rfl hlocate, hresolve⟩, rfl, ?_, rfl⟩⟩
  show loaded.config.plugins ≠ []
  rw [hplugins]
  simp

/-- The project with the preset, and with a text in its place. -/
theorem applyPresets_accounted_style_preset :
    ∃ loaded d steps cause,
      (∀ presets, (publishing presets).Finds inheritingProject {} "/" {} loaded
        { linters := [{ id := "size" }], presets }) ∧
      loaded.config.Accounted [("style", stylePreset)] ∧
      loaded.config.applyPresets [("style", stylePreset)] = .ok d ∧
      d.inherited = ["engine"] ∧ d.excluded = ["dist", "out"] ∧
      loaded.config.Accounted [("style", .text "any")] ∧
      (publishing [("style", .text "any")]).run inheritingProject {} =
        (1, steps ++ [.tell (.failed (.config (.invalidPreset "style" cause)) false)]) ∧
      lintings steps = [] := by
  obtain ⟨loaded, hinherited, hexcluded, hfinds⟩ := finds_publishing
  obtain ⟨_, hprepares⟩ := (hfinds []).prepares
  have haccounted (presets : Table Value) : loaded.config.Accounted presets :=
    ResolvedConfig.applyPresets_accounted (Resolver.listedOnce_of_resolve hprepares.resolve_eq)
      (Resolver.wellFormed_linterConfig_of_resolve hprepares.resolve_eq) presets
  have hpreset : passes (fun preset => preset.excluded == some ["out", "dist"])
      (Configuration.ofValue stylePreset) = true := by decide +kernel
  obtain ⟨preset, hread, hlisted⟩ := exists_of_passes hpreset
  have hunder : presetsUnder [("style", stylePreset)] ["engine", "style"] =
      [("style", preset)] := by
    simp [presetsUnder, published?, Table.find?_cons, hread]
  have hallRead : AllRead [("style", stylePreset)] loaded.config.inherited := by
    simp [AllRead, hinherited, published?, Table.find?_cons, hread]
  have hd : loaded.config.applyPresets [("style", stylePreset)] =
      .ok (loaded.config.mergePresets (presetsUnder _ loaded.config.inherited)) :=
    applyPresets_eq_ok_iff.mpr ⟨hallRead, rfl⟩
  have hcompleted := (haccounted _).completed _ hd
  obtain ⟨cause, hcause⟩ : ∃ cause, Configuration.ofValue (.text "any") = .error cause := ⟨_, rfl⟩
  have hfails : loaded.config.applyPresets [("style", .text "any")] =
      .error (.config (.invalidPreset "style" cause)) := by
    refine ((haccounted _).failure _).mpr ⟨["engine"], "style", [], cause, hinherited, ?_, ?_, rfl⟩
    · simp [AllRead, published?, Table.find?_cons]
    · simp [published?, Table.find?_cons, hcause]
  obtain ⟨steps, hrun, hlintings⟩ := (haccounted _).stops (hfinds _) rfl rfl _ hfails
  refine ⟨loaded, _, steps, cause, hfinds, haccounted _, hd, ?_, ?_, haccounted _, hrun, hlintings⟩
  · rw [hcompleted.inherited, hinherited]
    decide
  · rw [hcompleted.excluded, hinherited, hunder, hexcluded, List.flatMap_singleton,
      eq_of_beq hlisted]
    decide

end LintFront
