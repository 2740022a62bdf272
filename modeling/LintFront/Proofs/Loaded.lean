import LintFront.Proofs.Consulted

/-!
# What is loaded is well-formed

Every configuration that a resolution works with has been read from a file, or has been merged from
such ones. So its tables hold each name once, whichever files and presets there are, and the lists
of the resolved configuration hold each entry once.

* `wellFormed_of_loadWithin`: the layer of a file.
* `Resolver.wellFormed_of_gather`: the layers of a project.
* `Resolver.listedOnce_of_resolve`: the lists of a resolved configuration.
-/

namespace LintFront

variable {disk : Disk} {lookup : PresetLookup}

/-! ## Layers -/

/-- What a loader of presets gives back is well-formed. -/
def LoadsWellFormed (load : String → Chain → Except RunError Layer × Chain) : Prop :=
  ∀ path chain layer, (load path chain).1 = .ok layer → layer.config.WellFormed

theorem wellFormed_of_loadPresets {load : String → Chain → Except RunError Layer × Chain}
    (hload : LoadsWellFormed load) {base : Place} (names : List String) :
    ∀ (chain : Chain) (presets : Presets),
      (loadPresets disk lookup base load names chain).1 = .ok presets →
      ∀ layer ∈ presets.layers, layer.config.WellFormed := by
  induction names with
  | nil =>
    intro chain presets h
    cases h
    simp
  | cons name rest ih =>
    intro chain presets h
    rw [loadPresets_cons] at h
    split at h
    · cases h
    · split at h
      · rename_i others chain' hrest
        cases h
        exact ih chain others (by rw [hrest])
      · cases h
    · rename_i path hname
      split at h
      · cases h
      · rename_i layer chain' hlayer
        split at h
        · rename_i others chain'' hrest
          cases h
          exact List.forall_mem_cons.mpr
            ⟨hload path chain layer (by rw [hlayer]), ih chain' others (by rw [hrest])⟩
        · cases h

theorem wellFormed_of_expandWith {load : String → Chain → Except RunError Layer × Chain}
    (hload : LoadsWellFormed load) {config : Configuration} (hc : config.WellFormed)
    {base : Place} {chain : Chain} {layer : Layer}
    (h : (expandWith disk lookup load config base chain).1 = .ok layer) :
    layer.config.WellFormed := by
  unfold expandWith at h
  split at h
  · rename_i presets chain' hpresets
    cases h
    have hown : ∀ inherited, { config with inherited := inherited : Configuration }.WellFormed :=
      fun _ => ⟨hc.severity, hc.linterConfig, hc.scopes, hc.scope⟩
    refine (hown _).foldl_merge fun c hmem => ?_
    obtain ⟨preset, hpreset, rfl⟩ := List.mem_map.mp hmem
    exact wellFormed_of_loadPresets hload _ chain presets (by rw [hpresets]) preset hpreset
  · cases h

theorem wellFormed_of_loadWithin (budget : Nat) : ∀ (kind : SourceKind),
    LoadsWellFormed (loadWithin disk lookup budget kind) := by
  induction budget with
  | zero =>
    intro kind path chain layer h
    unfold loadWithin at h
    split at h
    · cases h
    · split at h
      · cases h
      · split at h <;> cases h
  | succ budget ih =>
    intro kind path chain layer h
    unfold loadWithin at h
    split at h
    · cases h
    · split at h
      · cases h
      · split at h
        · cases h
        · rename_i config hread
          obtain ⟨expanded, hexpanded, rfl⟩ := map_eq_ok_iff.mp h
          have hwf : expanded.config.WellFormed := wellFormed_of_expandWith (ih .preset)
            (Disk.wellFormed_of_readConfigAt hread) hexpanded
          exact hwf

/-! ## Lists -/

namespace ResolvedConfig

/-- No list of a configuration holds an entry twice. -/
structure ListedOnce (c : ResolvedConfig) : Prop where
  included : c.included.Nodup
  excluded : c.excluded.Nodup
  extensions : c.extensions.Nodup
  plugins : c.plugins.Nodup
  inherited : c.inherited.Nodup

/-- Merged layers list everything once. -/
theorem listedOnce_ofMerged (layers : List Configuration) (below : Table ScopeOverride) :
    (ofMerged (Configuration.mergeAll layers) below).ListedOnce := by
  have hjoined (lists : List (Option (List String))) :
      ((lists.foldl unionOption none).getD []).Nodup := by
    rw [foldl_unionOption]
    exact nodup_joinLists lists
  rw [Configuration.mergeAll, Configuration.foldl_merge]
  exact ⟨hjoined _, hjoined _, hjoined _, hjoined _, hjoined _⟩

end ResolvedConfig

namespace Resolver

/-! ## What is gathered -/

/-- All layers gathered so far are well-formed. -/
def Proper (g : Gathered) : Prop := ∀ c ∈ g.layers, c.WellFormed

variable {r : Resolver} {g g' : Gathered} {path : String} {kind : SourceKind} {layer : Layer}

theorem wellFormed_of_load (h : r.load disk kind path = .ok layer) : layer.config.WellFormed :=
  wellFormed_of_loadWithin _ kind path [] layer h

theorem Proper.add (hg : Proper g) (hlayer : layer.config.WellFormed) : Proper (g.add layer) := by
  intro c hc
  rcases List.mem_append.mp hc with hc | hc
  · exact hg c hc
  · rw [List.mem_singleton.mp hc]
    exact hlayer

theorem Proper.addNamed (hg : Proper g) (h : r.addNamed disk kind path g = .ok g') : Proper g' := by
  unfold Resolver.addNamed at h
  split at h
  · split at h
    · cases h
      exact hg
    · cases h
      exact hg
  · obtain ⟨layer, hlayer, h⟩ := bind_eq_ok_iff.mp h
    cases h
    exact hg.add (wellFormed_of_load hlayer)

theorem Proper.addExplicit (hg : Proper g) {explicit : Option String}
    (h : r.addExplicit disk explicit g = .ok g') : Proper g' := by
  unfold Resolver.addExplicit at h
  split at h
  · cases h
    exact hg
  · dsimp only at h
    split at h
    · exact hg.addNamed h
    · cases h

theorem Proper.addEnvironment (hg : Proper g) (h : r.addEnvironment disk g = .ok g') :
    Proper g' := by
  unfold Resolver.addEnvironment at h
  split at h
  · cases h
    exact hg
  · split at h
    · cases h
      exact hg
    · split at h
      · exact hg.addNamed h
      · cases h
        exact hg

theorem Proper.walkUp {dirs : List Place} {boundary : Option Place} (hg : Proper g)
    (h : r.walkUp disk dirs g = .ok (g', boundary)) : Proper g' := by
  induction dirs generalizing g with
  | nil =>
    rw [walkUp_nil] at h
    cases h
    exact hg
  | cons dir above ih =>
    rw [walkUp_cons] at h
    split at h
    · exact ih hg h
    · rename_i path _
      split at h
      · exact ih hg h
      · split at h
        · cases h
        · rename_i layer hlayer
          have hadded : Proper ((g.add layer).see path) := hg.add (wellFormed_of_load hlayer)
          split at h
          · cases h
            exact hadded
          · exact ih hadded h

theorem Proper.addManifest {boundary : Option Place} {dirs : List Place} (hg : Proper g)
    (h : r.addManifest disk boundary dirs g = .ok g') : Proper g' := by
  obtain ⟨found, hfound, h⟩ := bind_eq_ok_iff.mp h
  cases found with
  | none =>
    cases h
    exact hg
  | some manifest =>
    obtain ⟨layer, hlayer, h⟩ := bind_eq_ok_iff.mp h
    cases h
    obtain ⟨dir, -, name, config, rfl, hmanifest⟩ := findManifest_eq_some hfound
    have hwf : layer.config.WellFormed := wellFormed_of_expandWith
      (wellFormed_of_loadWithin _ .preset) hmanifest.wellFormed hlayer
    exact hg.add hwf

theorem layers_addModule (root : Place) (g : Gathered) :
    (addModule disk root g).layers = g.layers := by
  unfold addModule
  split
  · rfl
  · split <;> rfl

/-- The layers of a project are well-formed. -/
theorem wellFormed_of_gather {root : Place} {explicit : Option String}
    (h : r.gather disk root explicit = .ok g) : ∀ c ∈ g.layers, c.WellFormed := by
  obtain ⟨g₁, h₁, h⟩ := bind_eq_ok_iff.mp h
  obtain ⟨g₂, h₂, h⟩ := bind_eq_ok_iff.mp h
  obtain ⟨⟨g₃, boundary⟩, h₃, h⟩ := bind_eq_ok_iff.mp h
  obtain ⟨g₄, h₄, h⟩ := bind_eq_ok_iff.mp h
  cases h
  have hempty : Proper {} := by simp [Proper]
  have hgathered := (((hempty.addExplicit h₁).addEnvironment h₂).walkUp h₃).addManifest h₄
  rw [layers_addModule]
  exact hgathered

/-! ## The resolved configuration -/

variable {project : String} {explicit : Option String} {loaded : Loaded}

theorem listedOnce_of_resolve (h : r.resolve disk project explicit = .ok loaded) :
    loaded.config.ListedOnce := by
  obtain ⟨_, -, g, -, b, -, rfl⟩ := resolve_eq_ok_iff.mp h
  exact ResolvedConfig.listedOnce_ofMerged g.layers _

theorem wellFormed_linterConfig_of_resolve (h : r.resolve disk project explicit = .ok loaded) :
    (Value.object loaded.config.linterConfig).WellFormed := by
  obtain ⟨_, -, g, hg, b, -, rfl⟩ := resolve_eq_ok_iff.mp h
  have hmerged := Configuration.wellFormed_empty.foldl_merge (wellFormed_of_gather hg)
  exact wellFormed_optionsObject hmerged.linterConfig

/-- A resolver without environment and presets, that looks at the files below a project too. -/
def plainResolver : Resolver := ⟨none, fun _ _ => none, true⟩

end Resolver

end LintFront
