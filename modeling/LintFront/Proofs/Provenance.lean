import LintFront.Config.Resolve
import LintFront.Proofs.Agreement
import LintFront.Proofs.Reading

/-!
# Sources and what they say

A resolution records the sources that it has consulted. Presets are merged below the file that
names them before that file is merged with others; the sources are a plain list. Both say the same:
the configuration is that of the sources merged one after the other, each one by itself.

* `Stack`: sources with what they say by themselves, the highest first.
* `PresetStack`: the presets of a file, each one right above its own presets.
* `IsTopBlock.tells`: all that a stack says is in files and manifests.
* `loadWithin_explained`: a layer is the collapse of a stack.
* `Resolver.resolve_explained`: a resolution is the collapse of its sources.
-/

namespace LintFront

/-! ## Files -/

theorem FileTree.mem_entryPlaces {here place : Place} {name : String} {tree : FileTree}
    {entries : List (String × FileTree)} (hmem : (name, tree) ∈ entries)
    (hplace : place ∈ tree.filePlaces (here ++ [name])) :
    place ∈ FileTree.entryPlaces here entries := by
  induction entries with
  | nil => cases hmem
  | cons entry rest ih =>
    rw [FileTree.entryPlaces]
    rcases List.mem_cons.mp hmem with rfl | hmem
    · exact List.mem_append_left _ hplace
    · exact List.mem_append_right _ (ih hmem)

/-- Every file is among the files of its tree. -/
theorem FileTree.mem_filePlaces {tree : FileTree} {here place : Place} {text : Option String}
    (h : tree.at? place = some (.file text)) : here ++ place ∈ tree.filePlaces here := by
  induction place generalizing tree here with
  | nil =>
    obtain rfl : tree = .file text := by simpa [FileTree.at?] using h
    simp [FileTree.filePlaces]
  | cons name rest ih =>
    cases tree with
    | file text => simp [FileTree.at?] at h
    | link target => simp [FileTree.at?] at h
    | directory entries =>
      rw [FileTree.at?] at h
      split at h
      · rename_i inner hinner
        have hrest : here ++ [name] ++ rest ∈ inner.filePlaces (here ++ [name]) := ih h
        rw [List.append_assoc, List.singleton_append] at hrest
        rw [FileTree.filePlaces]
        exact FileTree.mem_entryPlaces (Table.mem_of_find? hinner) hrest
      · cases h

namespace Disk

variable {disk : Disk} {place : Place}

theorem mem_filePlaces_of_textAt {text : String} (h : disk.textAt place = .ok text) :
    place ∈ disk.tree.filePlaces [] := by
  unfold textAt at h
  split at h
  · rename_i hfile
    exact FileTree.mem_filePlaces hfile
  all_goals cases h

theorem mem_filePlaces_of_readConfigAt {config : Configuration}
    (h : disk.readConfigAt place = .ok config) : place ∈ disk.tree.filePlaces [] := by
  unfold readConfigAt at h
  split at h
  · rename_i text htext
    exact mem_filePlaces_of_textAt htext
  · cases h

/-- What a path leads to is at a place. -/
theorem exists_textAt {path text : String} (h : disk.readText path = .ok text) :
    ∃ place, disk.locate path = .ok place ∧ disk.textAt place = .ok text := by
  obtain ⟨place, hplace, htext⟩ := bind_eq_ok_iff.mp h
  refine ⟨place, ?_, htext⟩
  unfold lookUp at hplace
  split at hplace
  · cases hplace
  · exact hplace

end Disk

/-! ## Configurations of files -/

theorem wellFormed_of_parseConfig {path text : String} {config : Configuration}
    (h : parseConfig path text = .ok config) : config.WellFormed := by
  unfold parseConfig at h
  split at h
  · rename_i c hread
    cases h
    obtain ⟨t, -, hread⟩ := bind_eq_ok_iff.mp hread
    exact Configuration.wellFormed_of_read _ t _ hread
  · cases h

theorem parseConfig_eq_ok {path path' text : String} {config : Configuration}
    (h : parseConfig path text = .ok config) : parseConfig path' text = .ok config := by
  unfold parseConfig at h ⊢
  split at h
  · exact h
  · cases h

theorem Disk.wellFormed_of_readConfigAt {disk : Disk} {place : Place} {config : Configuration}
    (h : disk.readConfigAt place = .ok config) : config.WellFormed := by
  unfold Disk.readConfigAt at h
  split at h
  · exact wellFormed_of_parseConfig h
  · cases h

theorem Disk.exists_readConfigAt {disk : Disk} {path : String} {config : Configuration}
    (h : disk.readConfig path = .ok config) :
    ∃ place, disk.locate path = .ok place ∧ disk.readConfigAt place = .ok config := by
  unfold Disk.readConfig at h
  split at h
  · rename_i text htext
    obtain ⟨place, hplace, htext⟩ := Disk.exists_textAt htext
    refine ⟨place, hplace, ?_⟩
    rw [Disk.readConfigAt, htext]
    exact parseConfig_eq_ok h
  · cases h

theorem wellFormed_of_manifestConfig {path text : String} {config : Configuration}
    (h : manifestConfig path text = .ok (some config)) : config.WellFormed := by
  unfold manifestConfig at h
  split at h
  · cases h
  · split at h
    · cases h
    · split at h
      · rename_i c hread
        cases h
        exact Configuration.wellFormed_of_read _ _ _ hread
      · cases h

theorem manifestConfig_eq_ok {path path' text : String} {config : Option Configuration}
    (h : manifestConfig path text = .ok config) : manifestConfig path' text = .ok config := by
  unfold manifestConfig at h ⊢
  split at h
  · cases h
  · split at h
    · exact h
    · split at h
      · exact h
      · cases h

/-! ## Stacks -/

/-- Sources with what they say by themselves, the highest first. -/
abbrev Stack := List (ConfigSource × Configuration)

namespace Disk

/-- Whether a preset is left to the engine. -/
def isLeft (disk : Disk) (lookup : PresetLookup) (base : Place) (name : String) : Bool :=
  match disk.locatePreset lookup base name with
  | .ok none => true
  | _ => false

/-- A configuration that names no presets but those left to the engine. -/
def leftToEngine (disk : Disk) (lookup : PresetLookup) (base : Place) (config : Configuration) :
    Configuration :=
  let names := (config.inherited.getD []).filter (disk.isLeft lookup base)
  { config with inherited := if names.isEmpty then none else some names }

end Disk

/-- The presets with the given names, the earlier ones above the later ones, and each one with its
own presets right below it. Those left to the engine are passed over. -/
inductive PresetStack (disk : Disk) (lookup : PresetLookup) : Place → List String → Stack → Prop
  | nil {base : Place} : PresetStack disk lookup base [] []
  | left {base : Place} {name : String} {rest : List String} {below : Stack}
      (hname : disk.locatePreset lookup base name = .ok none)
      (hrest : PresetStack disk lookup base rest below) :
      PresetStack disk lookup base (name :: rest) below
  | found {base place : Place} {name path : String} {rest : List String} {own below : Stack}
      {config : Configuration} (hname : disk.locatePreset lookup base name = .ok (some path))
      (hplace : disk.locate path = .ok place) (hread : disk.readConfigAt place = .ok config)
      (hown : PresetStack disk lookup place.parent (config.inherited.getD []) own)
      (hrest : PresetStack disk lookup base rest below) :
      PresetStack disk lookup base (name :: rest)
        ((⟨place.toPath, .preset, none⟩, disk.leftToEngine lookup place.parent config) ::
          (own ++ below))

/-- A source that says `config` and belongs to a directory, with its presets below it. -/
def IsBlock (disk : Disk) (lookup : PresetLookup) (source : ConfigSource)
    (config : Configuration) (base : Place) (stack : Stack) : Prop :=
  ∃ below, PresetStack disk lookup base (config.inherited.getD []) below ∧
    stack = (source, disk.leftToEngine lookup base config) :: below

/-- The stack of a configuration file. -/
def IsFileBlock (disk : Disk) (lookup : PresetLookup) (kind : SourceKind) (place : Place)
    (stack : Stack) : Prop :=
  ∃ config, disk.readConfigAt place = .ok config ∧
    IsBlock disk lookup ⟨place.toPath, kind, none⟩ config place.parent stack

/-- A configuration is what a manifest of a directory holds. -/
def IsManifest (disk : Disk) (dir : Place) (name : String) (config : Configuration) : Prop :=
  name ∈ manifestFiles ∧ ∃ text, disk.readText (joinPath dir.toPath name) = .ok text ∧
    manifestConfig (joinPath dir.toPath name) text = .ok (some config)

/-- The stack of the field of a manifest. -/
def IsManifestBlock (disk : Disk) (lookup : PresetLookup) (stack : Stack) : Prop :=
  ∃ dir name config, IsManifest disk dir name config ∧
    IsBlock disk lookup ⟨joinPath dir.toPath name, .manifestField, none⟩ config dir stack

/-- A layer has the sources of a stack, and is the collapse of what they say if they agree. Whether
it ends a search does not depend on that. -/
structure Layer.Explains (layer : Layer) (stack : Stack) : Prop where
  sources : layer.sources = stack.map Prod.fst
  root : layer.config.root = (stack.map Prod.snd).findSome? Configuration.root
  config : (stack.map Prod.snd).Pairwise Configuration.Agree →
    layer.config = Configuration.collapse (stack.map Prod.snd)

variable {disk : Disk} {lookup : PresetLookup}

theorem IsManifest.wellFormed {dir : Place} {name : String} {config : Configuration}
    (h : IsManifest disk dir name config) : config.WellFormed := by
  obtain ⟨-, text, -, hconfig⟩ := h
  exact wellFormed_of_manifestConfig hconfig

namespace Disk

/-- A file holds a configuration, or a manifest has it as its field. -/
def Holds (disk : Disk) (config : Configuration) : Prop :=
  (∃ place, disk.readConfigAt place = .ok config) ∨ ∃ dir name, IsManifest disk dir name config

/-- What is said by a source of a disk by itself. -/
def Tells (disk : Disk) (lookup : PresetLookup) (config : Configuration) : Prop :=
  ∃ base held, disk.Holds held ∧ config = disk.leftToEngine lookup base held

theorem Holds.tells {config : Configuration} (h : disk.Holds config) (base : Place) :
    disk.Tells lookup (disk.leftToEngine lookup base config) := ⟨base, config, h, rfl⟩

theorem wellFormed_leftToEngine {base : Place} {config : Configuration}
    (h : config.WellFormed) : (disk.leftToEngine lookup base config).WellFormed :=
  ⟨h.severity, h.linterConfig, h.scopes, h.scope⟩

theorem Tells.wellFormed {config : Configuration} (h : disk.Tells lookup config) :
    config.WellFormed := by
  obtain ⟨base, held, ⟨place, hread⟩ | ⟨dir, name, hmanifest⟩, rfl⟩ := h
  · exact wellFormed_leftToEngine (wellFormed_of_readConfigAt hread)
  · exact wellFormed_leftToEngine hmanifest.wellFormed

/-- Presets that are left to the engine have no part in whether two configurations agree. -/
theorem Tells.agree (hagree : ∀ c d, disk.Holds c → disk.Holds d → c.Agree d)
    {c d : Configuration} (hc : disk.Tells lookup c) (hd : disk.Tells lookup d) : c.Agree d := by
  obtain ⟨base, held, hheld, rfl⟩ := hc
  obtain ⟨base', held', hheld', rfl⟩ := hd
  exact ⟨(hagree held held' hheld hheld').options, (hagree held held' hheld hheld').scopes⟩

/-- Whether all configurations on a disk pass a check, those of files and those that its files would
have as manifests. -/
def allHeld (disk : Disk) (check : Configuration → Bool) : Bool :=
  (disk.tree.filePlaces []).all fun place =>
    match disk.textAt place with
    | .error _ => true
    | .ok text =>
      (match parseConfig "" text with
        | .ok config => check config
        | .error _ => true) &&
      match manifestConfig "" text with
      | .ok (some config) => check config
      | _ => true

theorem Holds.of_allHeld {config : Configuration} {check : Configuration → Bool}
    (h : disk.Holds config) (hall : disk.allHeld check = true) : check config = true := by
  have hchecked := List.all_eq_true.mp hall
  rcases h with ⟨place, hread⟩ | ⟨dir, name, -, text, htext, hconfig⟩
  · have hplace := hchecked place (mem_filePlaces_of_readConfigAt hread)
    unfold readConfigAt at hread
    split at hread
    · rename_i text htext
      rw [htext] at hplace
      dsimp only at hplace
      rw [parseConfig_eq_ok hread] at hplace
      exact (Bool.and_eq_true_iff.mp hplace).1
    · cases hread
  · obtain ⟨place, -, htext⟩ := exists_textAt htext
    have hplace := hchecked place (mem_filePlaces_of_textAt htext)
    rw [htext] at hplace
    dsimp only at hplace
    rw [manifestConfig_eq_ok hconfig] at hplace
    exact (Bool.and_eq_true_iff.mp hplace).2

end Disk

theorem PresetStack.tells {base : Place} {names : List String} {stack : Stack}
    (h : PresetStack disk lookup base names stack) :
    ∀ entry ∈ stack, disk.Tells lookup entry.2 := by
  induction h with
  | nil => simp
  | left _ _ ih => exact ih
  | found _ _ hread _ _ ihown ihrest =>
    intro entry hentry
    rcases List.mem_cons.mp hentry with rfl | hentry
    · exact Disk.Holds.tells (Or.inl ⟨_, hread⟩) _
    · rcases List.mem_append.mp hentry with hentry | hentry
      · exact ihown entry hentry
      · exact ihrest entry hentry

theorem IsBlock.tells {source : ConfigSource} {config : Configuration} {base : Place}
    {stack : Stack} (h : IsBlock disk lookup source config base stack)
    (hc : disk.Holds config) : ∀ entry ∈ stack, disk.Tells lookup entry.2 := by
  obtain ⟨below, hbelow, rfl⟩ := h
  intro entry hentry
  rcases List.mem_cons.mp hentry with rfl | hentry
  · exact hc.tells base
  · exact hbelow.tells entry hentry

theorem IsBlock.ne_nil {source : ConfigSource} {config : Configuration} {base : Place}
    {stack : Stack} (h : IsBlock disk lookup source config base stack) : stack ≠ [] := by
  obtain ⟨below, -, rfl⟩ := h
  exact List.cons_ne_nil _ _

/-! ## Presets -/

/-- Whatever a loader accepts is explained by the stack of a preset. -/
def LoadsPresets (disk : Disk) (lookup : PresetLookup)
    (load : String → Chain → Except RunError Layer × Chain) : Prop :=
  ∀ path chain layer, (load path chain).1 = .ok layer →
    ∃ place stack, disk.locate path = .ok place ∧ IsFileBlock disk lookup .preset place stack ∧
      layer.Explains stack

theorem findSome?_flatten {α β : Type} (f : α → Option β) (lists : List (List α)) :
    lists.flatten.findSome? f = lists.findSome? (List.findSome? f) := by
  induction lists with
  | nil => rfl
  | cons head rest ih =>
    rw [List.flatten_cons, List.findSome?_append, ih, List.findSome?_cons]
    cases head.findSome? f <;> rfl

theorem findSome?_congr {α β : Type} {f g : α → Option β} {l : List α}
    (h : ∀ a ∈ l, f a = g a) : l.findSome? f = l.findSome? g := by
  induction l with
  | nil => rfl
  | cons head rest ih =>
    rw [List.findSome?_cons, List.findSome?_cons, h head List.mem_cons_self,
      ih fun a ha => h a (List.mem_cons_of_mem _ ha)]

theorem loadPresets_cons (lookup : PresetLookup) (base : Place)
    (load : String → Chain → Except RunError Layer × Chain) (name : String) (rest : List String)
    (chain : Chain) :
    loadPresets disk lookup base load (name :: rest) chain =
      match disk.locatePreset lookup base name with
      | .error e => (.error e, chain)
      | .ok none =>
        match loadPresets disk lookup base load rest chain with
        | (.ok presets, chain) =>
          (.ok { presets with unresolved := name :: presets.unresolved }, chain)
        | (.error e, chain) => (.error e, chain)
      | .ok (some path) =>
        match load path chain with
        | (.error e, chain) => (.error e, chain)
        | (.ok layer, chain) =>
          match loadPresets disk lookup base load rest chain with
          | (.ok presets, chain) => (.ok { presets with layers := layer :: presets.layers }, chain)
          | (.error e, chain) => (.error e, chain) := by
  delta loadPresets
  rfl

theorem loadPresets_explained {load : String → Chain → Except RunError Layer × Chain}
    (hload : LoadsPresets disk lookup load) {base : Place} (names : List String) :
    ∀ (chain : Chain) (presets : Presets),
      (loadPresets disk lookup base load names chain).1 = .ok presets →
      ∃ pairs : List (Stack × Layer), pairs.map Prod.snd = presets.layers ∧
        (∀ pair ∈ pairs, pair.2.Explains pair.1 ∧ pair.1 ≠ []) ∧
        PresetStack disk lookup base names (pairs.flatMap Prod.fst) ∧
        presets.unresolved = names.filter (disk.isLeft lookup base) := by
  induction names with
  | nil =>
    intro chain presets h
    cases h
    exact ⟨[], rfl, by simp, .nil, rfl⟩
  | cons name rest ih =>
    intro chain presets h
    rw [loadPresets_cons] at h
    split at h
    · cases h
    · rename_i hname
      have hleft : disk.isLeft lookup base name = true := by simp [Disk.isLeft, hname]
      split at h
      · rename_i others chain' hrest
        cases h
        obtain ⟨pairs, hlayers, hpairs, hstack, hleftover⟩ := ih chain others (by rw [hrest])
        refine ⟨pairs, hlayers, hpairs, .left hname hstack, ?_⟩
        rw [List.filter_cons, if_pos hleft, hleftover]
      · cases h
    · rename_i path hname
      have hfound : ¬ disk.isLeft lookup base name = true := by simp [Disk.isLeft, hname]
      split at h
      · cases h
      · rename_i layer chain' hlayer
        split at h
        · rename_i others chain'' hrest
          cases h
          obtain ⟨pairs, hlayers, hpairs, hstack, hleftover⟩ := ih chain' others (by rw [hrest])
          obtain ⟨place, stack, hplace, ⟨config, hread, own, hown, rfl⟩, hexplains⟩ :=
            hload path chain layer (by rw [hlayer])
          let stack := (⟨place.toPath, .preset, none⟩,
            disk.leftToEngine lookup place.parent config) :: own
          refine ⟨(stack, layer) :: pairs, congrArg (layer :: ·) hlayers, ?_, ?_, ?_⟩
          · intro pair hpair
            rcases List.mem_cons.mp hpair with rfl | hpair
            · exact ⟨hexplains, List.cons_ne_nil _ _⟩
            · exact hpairs pair hpair
          · exact .found hname hplace hread hown hstack
          · rw [List.filter_cons, if_neg hfound, hleftover]
        · cases h

/-- A configuration with its presets is explained by its block. -/
theorem expandWith_explained {load : String → Chain → Except RunError Layer × Chain}
    (hload : LoadsPresets disk lookup load) {config : Configuration} (hc : config.WellFormed)
    {base : Place} {chain : Chain} {layer : Layer}
    (h : (expandWith disk lookup load config base chain).1 = .ok layer) (source : ConfigSource) :
    ∃ stack, IsBlock disk lookup source config base stack ∧
      (⟨layer.config, source :: layer.sources⟩ : Layer).Explains stack := by
  unfold expandWith at h
  split at h
  · rename_i presets chain' hpresets
    cases h
    obtain ⟨pairs, hlayers, hpairs, hstack, hleft⟩ :=
      loadPresets_explained hload (config.inherited.getD []) chain presets (by rw [hpresets])
    have hgroups : (pairs.flatMap Prod.fst).map Prod.snd =
        (pairs.map fun pair => pair.1.map Prod.snd).flatten := by
      rw [List.map_flatMap, List.flatMap_def]
    have hown : (presets.below config).config =
        (presets.layers.map Layer.config).foldl Configuration.merge
          (disk.leftToEngine lookup base config) := by
      rw [Presets.below, hleft]
      rfl
    refine ⟨_, ⟨_, hstack, rfl⟩, ?_, ?_, fun hagree => ?_⟩
    · rw [List.map_cons, Presets.below, ← hlayers, List.map_flatMap, List.flatMap_map]
      simp only [List.flatMap_def]
      rw [List.map_congr_left fun pair hpair => (hpairs pair hpair).1.sources]
    · have hroots : (presets.layers.map Layer.config).findSome? Configuration.root =
          (pairs.map fun pair => pair.1.map Prod.snd).flatten.findSome? Configuration.root := by
        rw [← hlayers, List.map_map, List.findSome?_map, findSome?_flatten,
          List.findSome?_map]
        exact findSome?_congr fun pair hpair => (hpairs pair hpair).1.root
      rw [hown, Configuration.foldl_merge, List.map_cons, hgroups, List.findSome?_cons, ← hroots]
      dsimp only
      rw [foldl_or]
      cases (disk.leftToEngine lookup base config).root <;> rfl
    · have htold := hstack.tells
      rw [List.map_cons, hgroups] at hagree ⊢
      obtain ⟨-, hagree⟩ := List.pairwise_cons.mp hagree
      have hcollapse : presets.layers.map Layer.config =
          (pairs.map fun pair => pair.1.map Prod.snd).map Configuration.collapse := by
        rw [← hlayers, List.map_map, List.map_map]
        refine List.map_congr_left fun pair hpair => (hpairs pair hpair).1.config ?_
        exact (List.pairwise_flatten.mp hagree).1 _ (List.mem_map.mpr ⟨pair, hpair, rfl⟩)
      rw [hown, hcollapse]
      refine Configuration.foldl_collapse (Disk.wellFormed_leftToEngine hc) ?_ ?_ hagree
      · intro hnil
        obtain ⟨pair, hpair, hempty⟩ := List.mem_map.mp hnil
        exact (hpairs pair hpair).2 (List.map_eq_nil_iff.mp hempty)
      · intro c hmem
        rw [← hgroups] at hmem
        obtain ⟨entry, hentry, rfl⟩ := List.mem_map.mp hmem
        exact (htold entry hentry).wellFormed
  · cases h

/-- The layer of a file is explained by its block. -/
theorem loadWithin_explained (budget : Nat) : ∀ (kind : SourceKind) (path : String)
    (chain : Chain) (layer : Layer),
    (loadWithin disk lookup budget kind path chain).1 = .ok layer →
    ∃ place stack, disk.locate path = .ok place ∧ IsFileBlock disk lookup kind place stack ∧
      layer.Explains stack := by
  induction budget with
  | zero =>
    intro kind path chain layer h
    unfold loadWithin at h
    split at h
    · cases h
    · split at h
      · cases h
      · split at h <;> cases h
  | succ budget ih =>
    intro kind path chain layer h
    unfold loadWithin at h
    split at h
    · cases h
    · rename_i place hplace
      split at h
      · cases h
      · split at h
        · cases h
        · rename_i config hread
          obtain ⟨expanded, hexpanded, rfl⟩ := map_eq_ok_iff.mp h
          obtain ⟨stack, hblock, hexplains⟩ := expandWith_explained (ih .preset)
            (Disk.wellFormed_of_readConfigAt hread) hexpanded ⟨place.toPath, kind, none⟩
          exact ⟨place, stack, hplace, ⟨config, hread, hblock⟩, hexplains⟩

/-! ## One directory after the other -/

theorem manifestIn_nil (dir : Place) : disk.manifestIn dir [] = .ok none := by
  delta Disk.manifestIn
  rfl

theorem manifestIn_cons (dir : Place) (name : String) (rest : List String) :
    disk.manifestIn dir (name :: rest) =
      if disk.isFile (joinPath dir.toPath name) then
        match disk.readText (joinPath dir.toPath name) with
        | .error cause => .error (.io (joinPath dir.toPath name) cause)
        | .ok text =>
          match manifestConfig (joinPath dir.toPath name) text with
          | .error e => .error e
          | .ok (some config) => .ok (some ⟨joinPath dir.toPath name, dir, name, config⟩)
          | .ok none => disk.manifestIn dir rest
      else disk.manifestIn dir rest := by
  delta Disk.manifestIn
  rfl

theorem findManifest_nil (boundary : Option Place) :
    disk.findManifest boundary [] = .ok none := by
  delta Disk.findManifest
  rfl

theorem findManifest_cons (boundary : Option Place) (dir : Place) (above : List Place) :
    disk.findManifest boundary (dir :: above) =
      match disk.manifestIn dir manifestFiles with
      | .error e => .error e
      | .ok (some manifest) => .ok (some manifest)
      | .ok none =>
        if boundary = some dir then .ok none else disk.findManifest boundary above := by
  delta Disk.findManifest
  rfl

namespace Resolver

theorem walkUp_nil (r : Resolver) (g : Gathered) : r.walkUp disk [] g = .ok (g, none) := by
  delta walkUp
  rfl

theorem walkUp_cons (r : Resolver) (dir : Place) (above : List Place) (g : Gathered) :
    r.walkUp disk (dir :: above) g =
      match disk.findDeclarative dir with
      | none => r.walkUp disk above g
      | some path =>
        if g.seen.contains path then r.walkUp disk above g
        else
          match r.load disk .declarativeFile path with
          | .error e => .error e
          | .ok layer =>
            if layer.config.root = some true then .ok ((g.add layer).see path, some dir)
            else r.walkUp disk above ((g.add layer).see path) := by
  delta walkUp
  rfl

end Resolver

/-! ## Manifests -/

theorem manifestIn_eq_some {dir : Place} {names : List String} {manifest : Manifest}
    (h : disk.manifestIn dir names = .ok (some manifest))
    (hnames : ∀ name ∈ names, name ∈ manifestFiles) :
    ∃ name config, manifest = ⟨joinPath dir.toPath name, dir, name, config⟩ ∧
      IsManifest disk dir name config := by
  induction names with
  | nil =>
    rw [manifestIn_nil] at h
    cases h
  | cons name rest ih =>
    have hrest : ∀ other ∈ rest, other ∈ manifestFiles :=
      fun other hother => hnames other (List.mem_cons_of_mem _ hother)
    rw [manifestIn_cons] at h
    split at h
    · split at h
      · cases h
      · rename_i text htext
        split at h
        · cases h
        · rename_i config hconfig
          cases h
          exact ⟨name, config, rfl, hnames name List.mem_cons_self, text, htext, hconfig⟩
        · exact ih h hrest
    · exact ih h hrest

theorem findManifest_eq_some {boundary : Option Place} {dirs : List Place} {manifest : Manifest}
    (h : disk.findManifest boundary dirs = .ok (some manifest)) :
    ∃ dir ∈ dirs, ∃ name config, manifest = ⟨joinPath dir.toPath name, dir, name, config⟩ ∧
      IsManifest disk dir name config := by
  induction dirs with
  | nil =>
    rw [findManifest_nil] at h
    cases h
  | cons dir above ih =>
    rw [findManifest_cons] at h
    split at h
    · cases h
    · rename_i found hfound
      cases h
      obtain ⟨name, config, heq, hmanifest⟩ := manifestIn_eq_some hfound fun _ hname => hname
      exact ⟨dir, List.mem_cons_self, name, config, heq, hmanifest⟩
    · split at h
      · cases h
      · obtain ⟨dir', hdir', hrest⟩ := ih h
        exact ⟨dir', List.mem_cons_of_mem _ hdir', hrest⟩

/-! ## Whole resolutions -/

/-- A block of a resolution: a file, named or found, or the field of a manifest. -/
def IsTopBlock (disk : Disk) (lookup : PresetLookup) (stack : Stack) : Prop :=
  (∃ kind place, kind ∈ [.explicitFlag, .environmentVariable, .declarativeFile] ∧
    IsFileBlock disk lookup kind place stack) ∨ IsManifestBlock disk lookup stack

/-- What a block says is all in files and manifests. -/
theorem IsTopBlock.tells {stack : Stack} (h : IsTopBlock disk lookup stack) :
    ∀ entry ∈ stack, disk.Tells lookup entry.2 := by
  rcases h with ⟨kind, place, -, config, hread, hblock⟩ |
    ⟨dir, name, config, hmanifest, hblock⟩
  · exact hblock.tells (Or.inl ⟨place, hread⟩)
  · exact hblock.tells (Or.inr ⟨dir, name, hmanifest⟩)

theorem IsTopBlock.ne_nil {stack : Stack} (h : IsTopBlock disk lookup stack) : stack ≠ [] := by
  rcases h with ⟨_, _, -, _, -, hblock⟩ | ⟨_, _, _, -, hblock⟩
  · exact hblock.ne_nil
  · exact hblock.ne_nil

/-- Layers and sources come from blocks, the highest first. -/
def Gathered.Explained (disk : Disk) (lookup : PresetLookup) (g : Gathered) : Prop :=
  ∃ pairs : List (Stack × Layer),
    (∀ pair ∈ pairs, IsTopBlock disk lookup pair.1 ∧ pair.2.Explains pair.1) ∧
      g.layers = pairs.map (·.2.config) ∧ g.sources = pairs.flatMap (·.2.sources)

theorem Gathered.Explained.add {g : Gathered} (hg : g.Explained disk lookup) {stack : Stack}
    {layer : Layer} (hblock : IsTopBlock disk lookup stack) (hlayer : layer.Explains stack) :
    (g.add layer).Explained disk lookup := by
  obtain ⟨pairs, hpairs, hlayers, hsources⟩ := hg
  refine ⟨pairs ++ [(stack, layer)], fun pair hpair => ?_, ?_, ?_⟩
  · rcases List.mem_append.mp hpair with hpair | hpair
    · exact hpairs pair hpair
    · rw [List.mem_singleton.mp hpair]
      exact ⟨hblock, hlayer⟩
  · simp [Gathered.add, hlayers]
  · simp [Gathered.add, hsources]

namespace Resolver

variable {r : Resolver} {g g' : Gathered}

theorem load_explained {kind : SourceKind} {path : String} {layer : Layer}
    (h : r.load disk kind path = .ok layer) :
    ∃ place stack, disk.locate path = .ok place ∧ IsFileBlock disk r.presets kind place stack ∧
      layer.Explains stack := loadWithin_explained _ kind path [] layer h

/-- As long as no module has been found, everything gathered is explained. -/
def Explained (r : Resolver) (disk : Disk) (g : Gathered) : Prop :=
  g.moduleFile = none → g.Explained disk r.presets

theorem addNamed_explained {kind : SourceKind} {path : String}
    (hkind : kind ∈ [SourceKind.explicitFlag, .environmentVariable, .declarativeFile])
    (h : r.addNamed disk kind path g = .ok g') (hg : r.Explained disk g) :
    r.Explained disk g' := by
  intro hnone
  unfold addNamed at h
  split at h
  · split at h
    · cases h
      exact hg hnone
    · cases h
      cases hnone
  · obtain ⟨layer, hlayer, h⟩ := bind_eq_ok_iff.mp h
    cases h
    obtain ⟨place, stack, -, hblock, hexplains⟩ := load_explained hlayer
    exact (hg hnone).add (Or.inl ⟨kind, place, hkind, hblock⟩) hexplains

theorem addExplicit_explained {explicit : Option String}
    (h : r.addExplicit disk explicit g = .ok g') (hg : r.Explained disk g) :
    r.Explained disk g' := by
  unfold addExplicit at h
  split at h
  · cases h
    exact hg
  · dsimp only at h
    split at h
    · exact addNamed_explained (by simp) h hg
    · cases h

theorem addEnvironment_explained (h : r.addEnvironment disk g = .ok g')
    (hg : r.Explained disk g) : r.Explained disk g' := by
  unfold addEnvironment at h
  split at h
  · cases h
    exact hg
  · split at h
    · cases h
      exact hg
    · split at h
      · exact addNamed_explained (by simp) h hg
      · cases h
        exact hg

theorem walkUp_explained {dirs : List Place} {boundary : Option Place}
    (h : r.walkUp disk dirs g = .ok (g', boundary)) (hg : r.Explained disk g) :
    r.Explained disk g' := by
  induction dirs generalizing g with
  | nil =>
    rw [walkUp_nil] at h
    cases h
    exact hg
  | cons dir above ih =>
    rw [walkUp_cons] at h
    split at h
    · exact ih h hg
    · rename_i path _
      split at h
      · exact ih h hg
      · split at h
        · cases h
        · rename_i layer hlayer
          obtain ⟨place, stack, -, hblock, hexplains⟩ := load_explained hlayer
          have hadded : r.Explained disk ((g.add layer).see path) := fun hnone =>
            (hg hnone).add (Or.inl ⟨.declarativeFile, place, by simp, hblock⟩) hexplains
          split at h
          · cases h
            exact hadded
          · exact ih h hadded

theorem addManifest_explained {boundary : Option Place} {dirs : List Place}
    (h : r.addManifest disk boundary dirs g = .ok g') (hg : r.Explained disk g) :
    r.Explained disk g' := by
  obtain ⟨found, hfound, h⟩ := bind_eq_ok_iff.mp h
  cases found with
  | none =>
    cases h
    exact hg
  | some manifest =>
    obtain ⟨layer, hlayer, h⟩ := bind_eq_ok_iff.mp h
    cases h
    obtain ⟨dir, -, name, config, rfl, hmanifest⟩ := findManifest_eq_some hfound
    obtain ⟨stack, hblock, hexplains⟩ :=
      expandWith_explained (loadWithin_explained _ .preset) hmanifest.wellFormed
        hlayer ⟨joinPath dir.toPath name, .manifestField, none⟩
    exact fun hnone =>
      (hg hnone).add (Or.inr ⟨dir, name, config, hmanifest, hblock⟩) hexplains

theorem addModule_eq_self {root : Place} (h : (addModule disk root g).moduleFile = none) :
    addModule disk root g = g := by
  unfold addModule at h ⊢
  split
  · rfl
  · rename_i hnone
    rw [hnone] at h
    dsimp only at h
    split
    · rfl
    · rename_i path hpath
      rw [hpath] at h
      cases h

theorem gather_explained {root : Place} {explicit : Option String}
    (h : r.gather disk root explicit = .ok g) : r.Explained disk g := by
  obtain ⟨g₁, h₁, h⟩ := bind_eq_ok_iff.mp h
  obtain ⟨g₂, h₂, h⟩ := bind_eq_ok_iff.mp h
  obtain ⟨⟨g₃, boundary⟩, h₃, h⟩ := bind_eq_ok_iff.mp h
  obtain ⟨g₄, h₄, h⟩ := bind_eq_ok_iff.mp h
  cases h
  have hempty : r.Explained disk {} := fun _ => ⟨[], by simp, rfl, rfl⟩
  have hgathered := addManifest_explained h₄ (walkUp_explained h₃
    (addEnvironment_explained h₂ (addExplicit_explained h₁ hempty)))
  intro hnone
  have hsame := addModule_eq_self hnone
  rw [hsame] at hnone ⊢
  exact hgathered hnone

/-- Layers that explain agreeing blocks come to the same as all their sources by themselves. -/
theorem mergeAll_eq_of_explained (hg : g.Explained disk r.presets) :
    ∃ blocks : List Stack, (∀ block ∈ blocks, IsTopBlock disk r.presets block) ∧
      g.sources = blocks.flatten.map Prod.fst ∧
      ((blocks.flatten.map Prod.snd).Pairwise Configuration.Agree →
        Configuration.mergeAll g.layers =
          Configuration.mergeAll (blocks.flatten.map Prod.snd)) := by
  obtain ⟨pairs, hpairs, hlayers, hsources⟩ := hg
  have hblocks : ∀ block ∈ pairs.map Prod.fst, IsTopBlock disk r.presets block := by
    intro block hblock
    obtain ⟨pair, hpair, rfl⟩ := List.mem_map.mp hblock
    exact (hpairs pair hpair).1
  refine ⟨pairs.map Prod.fst, hblocks, ?_, fun hagree => ?_⟩
  · rw [hsources, List.flatMap_def, List.map_flatten, List.map_map]
    rw [List.map_congr_left fun pair hpair => (hpairs pair hpair).2.sources]
    rfl
  · rw [List.map_flatten] at hagree ⊢
    have hcollapse : g.layers =
        ((pairs.map Prod.fst).map (List.map Prod.snd)).map Configuration.collapse := by
      rw [hlayers, List.map_map, List.map_map]
      refine List.map_congr_left fun pair hpair => (hpairs pair hpair).2.config ?_
      refine (List.pairwise_flatten.mp hagree).1 _ (List.mem_map.mpr ⟨pair.1, ?_, rfl⟩)
      exact List.mem_map.mpr ⟨pair, hpair, rfl⟩
    rw [Configuration.mergeAll, hcollapse]
    refine Configuration.foldl_collapse Configuration.wellFormed_empty ?_ ?_ hagree
    · intro hnil
      obtain ⟨block, hblock, hempty⟩ := List.mem_map.mp hnil
      exact (hblocks block hblock).ne_nil (List.map_eq_nil_iff.mp hempty)
    · intro c hc
      obtain ⟨configs, hconfigs, hc⟩ := List.mem_flatten.mp hc
      obtain ⟨block, hblock, rfl⟩ := List.mem_map.mp hconfigs
      obtain ⟨entry, hentry, rfl⟩ := List.mem_map.mp hc
      exact ((hblocks block hblock).tells entry hentry).wellFormed

/-- A resolution without the directories below and without a module comes to what its sources say
by themselves, merged one after the other from the highest to the lowest. The sources are the files
and the manifest consulted, each one with its presets right below it. -/
theorem resolve_explained {project : String} {explicit : Option String} {loaded : Loaded}
    (h : r.resolve disk project explicit = .ok loaded) (hscan : r.scan = false)
    (hmodule : loaded.moduleFile = none) :
    ∃ blocks : List Stack, (∀ block ∈ blocks, IsTopBlock disk r.presets block) ∧
      loaded.sources.reverse = blocks.flatten.map Prod.fst ∧
      ((blocks.flatten.map Prod.snd).Pairwise Configuration.Agree →
        loaded.config = ResolvedConfig.ofMerged
          (Configuration.mergeAll (blocks.flatten.map Prod.snd)) []) := by
  obtain ⟨root, -, h⟩ := bind_eq_ok_iff.mp h
  obtain ⟨g, hg, h⟩ := bind_eq_ok_iff.mp h
  rw [hscan] at h
  cases h
  obtain ⟨blocks, hblocks, hsources, hconfig⟩ :=
    mergeAll_eq_of_explained (gather_explained hg hmodule)
  refine ⟨blocks, hblocks, ?_, fun hagree => ?_⟩
  · show (g.sources.reverse ++ []).reverse = _
    rw [List.append_nil, List.reverse_reverse, hsources]
  · rw [hconfig hagree]

/-- All sources agree if all that the disk holds does. -/
theorem pairwise_agree_of_holds (hagree : ∀ c d, disk.Holds c → disk.Holds d → c.Agree d)
    {blocks : List Stack} (hblocks : ∀ block ∈ blocks, IsTopBlock disk lookup block) :
    (blocks.flatten.map Prod.snd).Pairwise Configuration.Agree := by
  have htold : ∀ c ∈ blocks.flatten.map Prod.snd, disk.Tells lookup c := by
    intro c hc
    obtain ⟨entry, hentry, rfl⟩ := List.mem_map.mp hc
    obtain ⟨block, hblock, hentry⟩ := List.mem_flatten.mp hentry
    exact (hblocks block hblock).tells entry hentry
  exact List.pairwise_of_forall_mem_list fun c hc d hd => (htold c hc).agree hagree (htold d hd)

/-- A project whose file names two presets, the first of which names two more. Three of them have
options of one linter. -/
def nestedPresets : Disk where
  tree := .directory [
    ("a.json", .file (some "\x7b'inherit': ['./b.json', 'd'],
      'linterConfig': \x7b'size': \x7b'max': 2, 'min': 1\x7d\x7d\x7d")),
    ("b.json", .file (some "\x7b'skip': ['x'],
      'linterConfig': \x7b'size': \x7b'min': 0\x7d\x7d\x7d")),
    ("c.json", .file (some "\x7b'skip': ['y']\x7d")),
    ("p", .directory [
      ("viola.json", .file (some "\x7b'inherit': ['../a.json', '../c.json'],
        'linterConfig': \x7b'size': \x7b'max': 3\x7d\x7d\x7d"))])]
  cwd := []

/-- No options on the disk are nested, so they agree. -/
theorem agree_of_holds_nestedPresets (c d : Configuration) (hc : nestedPresets.Holds c)
    (hd : nestedPresets.Holds d) : c.Agree d := by
  have hflat : nestedPresets.allHeld Configuration.hasFlatOptions = true := by decide +kernel
  exact Configuration.agree_of_hasFlatOptions (hc.of_allHeld hflat) (hd.of_allHeld hflat)

theorem resolve_explained_nested_presets :
    ∃ loaded : Loaded,
      (⟨none, fun _ _ => none, false⟩ : Resolver).resolve nestedPresets "p" none =
          .ok loaded ∧
        loaded.moduleFile = none ∧
        loaded.sources.map ConfigSource.path =
          ["/c.json", "/b.json", "/a.json", "/p/viola.json"] ∧
        loaded.config.inherited = ["d"] ∧
        ((Table.find? loaded.config.linterConfig "size").bind Value.members?).map Table.names =
          some ["max", "min"] ∧
        ∃ blocks : List Stack,
          (∀ block ∈ blocks, IsTopBlock nestedPresets (fun _ _ => none) block) ∧
            loaded.sources.reverse = blocks.flatten.map Prod.fst ∧
            (blocks.flatten.map Prod.snd).Pairwise Configuration.Agree ∧
            loaded.config = ResolvedConfig.ofMerged
              (Configuration.mergeAll (blocks.flatten.map Prod.snd)) [] := by
  have hrun : passes
      (fun loaded => decide (loaded.moduleFile = none ∧ loaded.sources.map ConfigSource.path =
          ["/c.json", "/b.json", "/a.json", "/p/viola.json"] ∧
        loaded.config.inherited = ["d"] ∧
        ((Table.find? loaded.config.linterConfig "size").bind Value.members?).map Table.names =
          some ["max", "min"]))
      ((⟨none, fun _ _ => none, false⟩ : Resolver).resolve nestedPresets "p" none) = true := by
    decide +kernel
  obtain ⟨loaded, h, hcheck⟩ := exists_of_passes hrun
  obtain ⟨hnone, hsources, hinherited, hoptions⟩ := of_decide_eq_true hcheck
  obtain ⟨blocks, hblocks, hnames, hconfig⟩ := resolve_explained h rfl hnone
  have hagree := pairwise_agree_of_holds agree_of_holds_nestedPresets hblocks
  exact ⟨loaded, h, hnone, hsources, hinherited, hoptions, blocks, hblocks, hnames, hagree,
    hconfig hagree⟩

end Resolver

end LintFront
