import LintFront.Proofs.Provenance
import Mathlib.Logic.Relation

/-!
# Presets that come around

The presets of a file are loaded one inside the other, and the chain holds the files that are being
loaded. A file that comes again in it is an error. That finds every cycle of presets and nothing
else: a preset that several files share comes again only after it has left the chain.

* `Inherits`: one file names a preset that is found in another one.
* `Recurs`: a file that can be reached is in the chain already, or lies on a cycle.
* `loadWithin_chain`: the chain is as it was, whatever comes out.
* `loadWithin_answers`: an error names a file that recurs, and a layer means that there is none.
* `loadLayer_circular_iff`: the circular error comes if and only if some file recurs.
-/

namespace LintFront

open Relation

variable {disk : Disk} {lookup : PresetLookup}

/-! ## The graph of presets -/

/-- The file at one place names a preset that is found at another one. -/
def Inherits (disk : Disk) (lookup : PresetLookup) (place preset : Place) : Prop :=
  ∃ config name path, disk.readConfigAt place = .ok config ∧
    name ∈ config.inherited.getD [] ∧
    disk.locatePreset lookup place.parent name = .ok (some path) ∧ disk.locate path = .ok preset

/-- From one place another one is reached through presets. -/
def Reaches (disk : Disk) (lookup : PresetLookup) : Place → Place → Prop :=
  ReflTransGen (Inherits disk lookup)

/-- A file is a preset of one of its own presets, or of itself. -/
def OnCycle (disk : Disk) (lookup : PresetLookup) (place : Place) : Prop :=
  TransGen (Inherits disk lookup) place place

/-- A place that is reached from the start is in the chain, or lies on a cycle. -/
def Recurs (disk : Disk) (lookup : PresetLookup) (start : Place) (chain : Chain)
    (place : Place) : Prop :=
  Reaches disk lookup start place ∧ (place ∈ chain ∨ OnCycle disk lookup place)

/-- Nothing is wrong with the files that can be reached but that they may come around: they can be
read, and the paths among the presets that they name lead to files. -/
structure Complete (disk : Disk) (lookup : PresetLookup) (start : Place) : Prop where
  found : ∀ name base path, lookup name base = some path → disk.isFile path = true
  readable : ∀ place, Reaches disk lookup start place → ∃ config,
    disk.readConfigAt place = .ok config ∧ ∀ name ∈ config.inherited.getD [],
      isPresetPath name = true → disk.isFile (joinPath place.parent.toPath name) = true

theorem Complete.of_reaches {start place : Place} (h : Complete disk lookup start)
    (hplace : Reaches disk lookup start place) : Complete disk lookup place where
  found := h.found
  readable other hother := h.readable other (hplace.trans hother)

/-- Behind a file that is not in the chain, the same places recur as behind its presets when the
file itself has come into the chain. -/
theorem recurs_iff {start place : Place} {chain : Chain} (hstart : start ∉ chain) :
    Recurs disk lookup start chain place ↔
      ∃ preset, Inherits disk lookup start preset ∧
        Recurs disk lookup preset (chain ++ [start]) place := by
  constructor
  · rintro ⟨hreaches, hplace⟩
    rcases hreaches.cases_head with rfl | ⟨preset, hpreset, hreaches⟩
    · have hcycle := hplace.resolve_left hstart
      obtain ⟨preset, hpreset, hback⟩ := TransGen.head'_iff.mp hcycle
      exact ⟨preset, hpreset, hback, Or.inl (by simp)⟩
    · exact ⟨preset, hpreset, hreaches, hplace.imp_left (List.mem_append_left _)⟩
  · rintro ⟨preset, hpreset, hreaches, hplace⟩
    refine ⟨hreaches.head hpreset, ?_⟩
    rcases hplace with hmem | hcycle
    · rcases List.mem_append.mp hmem with hmem | hmem
      · exact Or.inl hmem
      · obtain rfl := List.mem_singleton.mp hmem
        exact Or.inr (TransGen.head' hpreset hreaches)
    · exact Or.inr hcycle

/-! ## The files that are left -/

/-- A file that comes into the chain is one less that may still come. -/
theorem unvisited_append_lt {place : Place} {chain : Chain}
    (hmem : place ∈ disk.tree.filePlaces []) (hnew : place ∉ chain) :
    unvisited disk (chain ++ [place]) < unvisited disk chain := by
  have hfilter : (disk.tree.filePlaces []).filter (fun p => !(chain ++ [place]).contains p) =
      ((disk.tree.filePlaces []).filter fun p => !chain.contains p).filter (· != place) := by
    rw [List.filter_filter]
    refine List.filter_congr fun p _ => ?_
    by_cases hp : p = place <;> simp [hp]
  rw [unvisited, unvisited, hfilter]
  refine List.length_filter_lt_length_iff_exists.mpr ⟨place, ?_, by simp⟩
  exact List.mem_filter.mpr ⟨hmem, by simpa using hnew⟩

/-! ## The chain is given back -/

theorem loadPresets_chain {load : String → Chain → Except RunError Layer × Chain}
    (hload : ∀ path chain, (load path chain).2 = chain) {base : Place} (names : List String) :
    ∀ chain, (loadPresets disk lookup base load names chain).2 = chain := by
  induction names with
  | nil => exact fun chain => rfl
  | cons name rest ih =>
    intro chain
    have hrest : ∀ {outcome after}, loadPresets disk lookup base load rest chain =
        (outcome, after) → after = chain := by
      intro outcome after h
      rw [← ih chain, h]
    rw [loadPresets_cons]
    split
    · rfl
    · split
      · rename_i h
        exact hrest h
      · rename_i h
        exact hrest h
    · rename_i path _
      have hfirst := hload path chain
      split
      · rename_i h
        rw [h] at hfirst
        exact hfirst
      · rename_i h
        rw [h] at hfirst
        cases hfirst
        split
        · rename_i h
          exact hrest h
        · rename_i h
          exact hrest h

theorem expandWith_chain {load : String → Chain → Except RunError Layer × Chain}
    (hload : ∀ path chain, (load path chain).2 = chain) (config : Configuration) (base : Place)
    (chain : Chain) : (expandWith disk lookup load config base chain).2 = chain := by
  have hpresets : (loadPresets disk lookup base load (config.inherited.getD []) chain).2 = chain :=
    loadPresets_chain hload _ chain
  unfold expandWith
  split
  · rename_i h
    rw [h] at hpresets
    exact hpresets
  · rename_i h
    rw [h] at hpresets
    exact hpresets

/-- Whatever comes of loading a file, the chain is as it was. -/
theorem loadWithin_chain (budget : Nat) : ∀ (kind : SourceKind) (path : String) (chain : Chain),
    (loadWithin disk lookup budget kind path chain).2 = chain := by
  induction budget with
  | zero =>
    intro kind path chain
    unfold loadWithin
    split
    · rfl
    · split
      · rfl
      · split <;> rfl
  | succ budget ih =>
    intro kind path chain
    unfold loadWithin
    split
    · rfl
    · split
      · rfl
      · split
        · rfl
        · rename_i place _ _ _ config _
          show (expandWith disk lookup _ config place.parent (chain ++ [place])).2.dropLast = chain
          rw [expandWith_chain (ih .preset), List.dropLast_concat]

/-! ## What loading answers -/

/-- An outcome that tells whether a place recurs: a layer if none does, and else the error with
one that does. -/
def Answers {α : Type} (recurs : Place → Prop) : Except RunError α → Prop
  | .ok _ => ∀ place, ¬ recurs place
  | .error e => ∃ place, recurs place ∧ e = .config (.circularInherit place.toPath)

theorem Answers.map {α β : Type} {recurs : Place → Prop} {outcome : Except RunError α}
    (h : Answers recurs outcome) (f : α → β) : Answers recurs (outcome.map f) := by
  cases outcome with
  | error e => exact h
  | ok a => exact h

/-- A preset that is named is left to the engine or found in a file. -/
theorem locatePreset_cases {base : Place} {name : String}
    (hfound : ∀ name base path, lookup name base = some path → disk.isFile path = true)
    (hname : isPresetPath name = true → disk.isFile (joinPath base.toPath name) = true) :
    disk.locatePreset lookup base name = .ok none ∨
      ∃ path preset, disk.locatePreset lookup base name = .ok (some path) ∧
        disk.locate path = .ok preset := by
  have hplace : ∀ path, disk.isFile path = true → ∃ preset, disk.locate path = .ok preset := by
    intro path hfile
    unfold Disk.isFile at hfile
    split at hfile
    · rename_i place hplace
      unfold Disk.lookUp at hplace
      split at hplace
      · cases hplace
      · exact ⟨place, hplace⟩
    · cases hfile
  unfold Disk.locatePreset
  split
  · rename_i hpath
    obtain ⟨preset, hpreset⟩ := hplace _ (hname hpath)
    refine Or.inr ⟨_, preset, ?_, hpreset⟩
    dsimp only
    rw [if_pos (hname hpath)]
  · cases hlookup : lookup name base with
    | none => exact Or.inl rfl
    | some path =>
      obtain ⟨preset, hpreset⟩ := hplace path (hfound name base path hlookup)
      exact Or.inr ⟨path, preset, rfl, hpreset⟩

/-- The presets that are found among some names. -/
def FoundAmong (disk : Disk) (lookup : PresetLookup) (base : Place) (names : List String)
    (preset : Place) : Prop :=
  ∃ name ∈ names, ∃ path, disk.locatePreset lookup base name = .ok (some path) ∧
    disk.locate path = .ok preset

/-- Presets that are loaded one after the other come to what the first of them comes to behind
which a place recurs. -/
theorem loadPresets_answers {load : String → Chain → Except RunError Layer × Chain}
    {base : Place} {chain : Chain} (hchain : ∀ path chain, (load path chain).2 = chain)
    (names : List String)
    (hnames : ∀ name ∈ names, disk.locatePreset lookup base name = .ok none ∨
      ∃ path preset, disk.locatePreset lookup base name = .ok (some path) ∧
        disk.locate path = .ok preset)
    (hload : ∀ name ∈ names, ∀ path preset,
      disk.locatePreset lookup base name = .ok (some path) → disk.locate path = .ok preset →
      Answers (Recurs disk lookup preset chain) (load path chain).1) :
    Answers (fun place => ∃ preset, FoundAmong disk lookup base names preset ∧
        Recurs disk lookup preset chain place)
      (loadPresets disk lookup base load names chain).1 := by
  induction names with
  | nil =>
    rintro place ⟨preset, ⟨name, hname, -⟩, -⟩
    cases hname
  | cons name rest ih =>
    have hrest := ih (fun n hn => hnames n (List.mem_cons_of_mem _ hn))
      fun n hn => hload n (List.mem_cons_of_mem _ hn)
    have hmore : ∀ preset, FoundAmong disk lookup base rest preset →
        FoundAmong disk lookup base (name :: rest) preset := by
      rintro preset ⟨n, hn, hpreset⟩
      exact ⟨n, List.mem_cons_of_mem _ hn, hpreset⟩
    rw [loadPresets_cons]
    rcases hnames name List.mem_cons_self with hleft | ⟨path, preset, hpath, hpreset⟩
    · -- A name that is left to the engine adds nothing to what is found.
      have hsame : ∀ preset, FoundAmong disk lookup base (name :: rest) preset ↔
          FoundAmong disk lookup base rest preset := by
        refine fun preset => ⟨?_, hmore preset⟩
        rintro ⟨n, hn, path, hpath, hpreset⟩
        rcases List.mem_cons.mp hn with rfl | hn
        · rw [hleft] at hpath
          cases hpath
        · exact ⟨n, hn, path, hpath, hpreset⟩
      rw [hleft]
      simp only [hsame]
      split
      · rename_i h
        rw [h] at hrest
        exact hrest
      · rename_i h
        rw [h] at hrest
        exact hrest
    · have hfirst := hload name List.mem_cons_self path preset hpath hpreset
      have hback := hchain path chain
      have hfound : FoundAmong disk lookup base (name :: rest) preset :=
        ⟨name, List.mem_cons_self, path, hpath, hpreset⟩
      rw [hpath]
      dsimp only
      split
      · rename_i h
        rw [h] at hfirst
        obtain ⟨place, hplace, he⟩ := hfirst
        exact ⟨place, ⟨preset, hfound, hplace⟩, he⟩
      · rename_i h
        rw [h] at hfirst hback
        cases hback
        split
        · rename_i h
          rw [h] at hrest
          rintro place ⟨other, ⟨n, hn, p, hp, hother⟩, hplace⟩
          rcases List.mem_cons.mp hn with rfl | hn
          · rw [hpath] at hp
            cases hp
            rw [hpreset] at hother
            cases hother
            exact hfirst place hplace
          · exact hrest place ⟨other, ⟨n, hn, p, hp, hother⟩, hplace⟩
        · rename_i h
          rw [h] at hrest
          obtain ⟨place, ⟨other, hother, hplace⟩, he⟩ := hrest
          exact ⟨place, ⟨other, hmore other hother, hplace⟩, he⟩

/-- Loading a file tells whether a place recurs behind it, if the budget is enough for the files
that are not in the chain. -/
theorem loadWithin_answers (budget : Nat) : ∀ (kind : SourceKind) (path : String) (chain : Chain)
    (start : Place), disk.locate path = .ok start → Complete disk lookup start →
    unvisited disk chain ≤ budget →
    Answers (Recurs disk lookup start chain) (loadWithin disk lookup budget kind path chain).1 := by
  induction budget with
  | zero =>
    intro kind path chain start hstart hcomplete hbudget
    obtain ⟨config, hread, -⟩ := hcomplete.readable start .refl
    -- A file that can be read is in the chain when no file is left.
    have hmem : start ∈ chain := by
      refine Decidable.byContradiction fun hnew => ?_
      have := unvisited_append_lt (Disk.mem_filePlaces_of_readConfigAt hread) hnew
      omega
    unfold loadWithin
    rw [hstart]
    dsimp only
    rw [if_pos (by simpa using hmem)]
    exact ⟨start, ⟨.refl, Or.inl hmem⟩, rfl⟩
  | succ budget ih =>
    intro kind path chain start hstart hcomplete hbudget
    obtain ⟨config, hread, hpaths⟩ := hcomplete.readable start .refl
    unfold loadWithin
    rw [hstart]
    dsimp only
    by_cases hmem : start ∈ chain
    · rw [if_pos (by simpa using hmem)]
      exact ⟨start, ⟨.refl, Or.inl hmem⟩, rfl⟩
    rw [if_neg (by simpa using hmem), hread]
    -- With the file in the chain one less is left, so that the budget is enough for its presets.
    have hless := unvisited_append_lt (Disk.mem_filePlaces_of_readConfigAt hread) hmem
    have hload : ∀ name ∈ config.inherited.getD [], ∀ path preset,
        disk.locatePreset lookup start.parent name = .ok (some path) →
        disk.locate path = .ok preset →
        Answers (Recurs disk lookup preset (chain ++ [start]))
          (loadWithin disk lookup budget .preset path (chain ++ [start])).1 := by
      intro name hname path preset hpath hpreset
      have hinherits : Inherits disk lookup start preset :=
        ⟨config, name, path, hread, hname, hpath, hpreset⟩
      exact ih .preset path (chain ++ [start]) preset hpreset
        (hcomplete.of_reaches (.single hinherits)) (by omega)
    have hpresets := loadPresets_answers (loadWithin_chain budget .preset) _
      (fun name hname => locatePreset_cases hcomplete.found (hpaths name hname)) hload
    -- What is found among the names of the file are its presets.
    have hfound : ∀ preset, FoundAmong disk lookup start.parent (config.inherited.getD []) preset ↔
        Inherits disk lookup start preset := by
      intro preset
      constructor
      · rintro ⟨name, hname, path, hpath, hpreset⟩
        exact ⟨config, name, path, hread, hname, hpath, hpreset⟩
      · rintro ⟨config', name, path, hread', hname, hpath, hpreset⟩
        rw [hread] at hread'
        cases hread'
        exact ⟨name, hname, path, hpath, hpreset⟩
    have hexpanded : Answers (Recurs disk lookup start chain)
        (expandWith disk lookup (loadWithin disk lookup budget .preset) config start.parent
          (chain ++ [start])).1 := by
      simp only [hfound, ← recurs_iff hmem] at hpresets
      unfold expandWith
      split
      · rename_i h
        rw [h] at hpresets
        exact hpresets
      · rename_i h
        rw [h] at hpresets
        exact hpresets
    exact hexpanded.map _

/-! ## The circular error -/

/-- Loading a file gives the chain back. If nothing else is wrong with the files that can be
reached, it fails if and only if one of them is in the chain or lies on a cycle, and it fails with
the circular error then. -/
theorem loadLayer_circular_iff (disk : Disk) (lookup : PresetLookup) (kind : SourceKind)
    (path : String) (chain : Chain) :
    (loadLayer disk lookup kind path chain).2 = chain ∧
      ∀ start, disk.locate path = .ok start → Complete disk lookup start →
        ((∃ shown, (loadLayer disk lookup kind path chain).1 =
            .error (.config (.circularInherit shown))) ↔
          ∃ place, Recurs disk lookup start chain place) ∧
        ((¬ ∃ place, Recurs disk lookup start chain place) →
          ∃ layer, (loadLayer disk lookup kind path chain).1 = .ok layer) := by
  refine ⟨loadWithin_chain _ kind path chain, fun start hstart hcomplete => ?_⟩
  have hanswers := loadWithin_answers _ kind path chain start hstart hcomplete (Nat.le_refl _)
  change Answers _ (loadLayer disk lookup kind path chain).1 at hanswers
  cases hresult : (loadLayer disk lookup kind path chain).1 with
  | ok layer =>
    rw [hresult] at hanswers
    refine ⟨⟨?_, ?_⟩, fun _ => ⟨layer, rfl⟩⟩
    · rintro ⟨shown, hshown⟩
      cases hshown
    · rintro ⟨place, hplace⟩
      exact absurd hplace (hanswers place)
  | error e =>
    rw [hresult] at hanswers
    obtain ⟨place, hplace, rfl⟩ := hanswers
    exact ⟨⟨fun _ => ⟨place, hplace⟩, fun _ => ⟨_, rfl⟩⟩, fun hnone => absurd ⟨place, hplace⟩ hnone⟩

/-! ## Two ways to one preset -/

/-- The default lookup answers existing files only. -/
theorem isFile_of_installedPreset {name path : String} {base : Place}
    (h : installedPreset disk name base = some path) : disk.isFile path = true := by
  obtain ⟨dir, -, hdir⟩ := List.exists_of_findSome?_eq_some h
  exact List.find?_some hdir

/-- Whether the presets that a configuration names are left to the engine or among some places,
and the paths among them lead to files. -/
def Disk.namesAmong (disk : Disk) (lookup : PresetLookup) (places : List Place) (base : Place)
    (config : Configuration) : Bool :=
  (config.inherited.getD []).all fun name =>
    (!isPresetPath name || disk.isFile (joinPath base.toPath name)) &&
      match disk.locatePreset lookup base name with
      | .ok (some path) => passes places.contains (disk.locate path)
      | _ => true

/-- Files that can be read and name no others are all that can be reached from one of them. -/
theorem complete_of_namesAmong {places : List Place} {start : Place} (hstart : start ∈ places)
    (hfound : ∀ name base path, lookup name base = some path → disk.isFile path = true)
    (hnames : ∀ place ∈ places,
      passes (disk.namesAmong lookup places place.parent) (disk.readConfigAt place) = true) :
    Complete disk lookup start := by
  have hreaches : ∀ place, Reaches disk lookup start place → place ∈ places := by
    intro place hplace
    induction hplace with
    | refl => exact hstart
    | tail _ hlast ih =>
      obtain ⟨config, name, path, hread, hname, hpath, hpreset⟩ := hlast
      obtain ⟨config', hread', hcheck⟩ := exists_of_passes (hnames _ ih)
      rw [hread] at hread'
      cases hread'
      have hamong := List.all_eq_true.mp hcheck name hname
      rw [hpath] at hamong
      have hmem := (Bool.and_eq_true_iff.mp hamong).2
      simpa [hpreset, passes] using hmem
  refine ⟨hfound, fun place hplace => ?_⟩
  obtain ⟨config, hread, hcheck⟩ := exists_of_passes (hnames place (hreaches place hplace))
  refine ⟨config, hread, fun name hname hpath => ?_⟩
  have hfile := (Bool.and_eq_true_iff.mp (List.all_eq_true.mp hcheck name hname)).1
  simpa [hpath] using hfile

/-- A preset that is named by another one, and through a link by an installed one. -/
def sharedPreset : Disk where
  tree := .directory [
    ("p", .directory [
      ("link.json", .link "shared.json"),
      ("node_modules", .directory [
        ("pkg", .directory [
          ("viola.json", .file (some "\x7b'inherit': ['../../link.json']\x7d"))])]),
      ("own.json", .file (some "\x7b'inherit': ['./shared.json', 'left']\x7d")),
      ("shared.json", .file (some "\x7b'skip': ['x']\x7d")),
      ("viola.json", .file (some "\x7b'inherit': ['./own.json', 'pkg']\x7d"))])]
  cwd := ["p"]

/-- The files on the two ways. -/
def sharingFiles : List Place := [["p", "viola.json"], ["p", "own.json"],
  ["p", "node_modules", "pkg", "viola.json"], ["p", "shared.json"]]

/-- A shared preset does not recur, unless it has been in the chain before. -/
theorem loadLayer_circular_iff_shared_preset :
    sharedPreset.locate "viola.json" = .ok ["p", "viola.json"] ∧
      Complete sharedPreset (installedPreset sharedPreset) ["p", "viola.json"] ∧
      (¬ ∃ place, Recurs sharedPreset (installedPreset sharedPreset) ["p", "viola.json"] [] place) ∧
      ∃ place, Recurs sharedPreset (installedPreset sharedPreset) ["p", "viola.json"]
        [["p", "shared.json"]] place := by
  have hlocated : passes (· == ["p", "viola.json"]) (sharedPreset.locate "viola.json") = true := by
    decide +kernel
  obtain ⟨start, hstart, hplace⟩ := exists_of_passes hlocated
  obtain rfl := eq_of_beq hplace
  have hnames : ∀ place ∈ sharingFiles, passes (sharedPreset.namesAmong
      (installedPreset sharedPreset) sharingFiles place.parent)
      (sharedPreset.readConfigAt place) = true := by
    decide +kernel
  have hcomplete : Complete sharedPreset (installedPreset sharedPreset) ["p", "viola.json"] :=
    complete_of_namesAmong List.mem_cons_self (fun _ _ _ => isFile_of_installedPreset) hnames
  have hrejects (chain : Chain) := ((loadLayer_circular_iff sharedPreset
    (installedPreset sharedPreset) .declarativeFile "viola.json" chain).2 _ hstart hcomplete).1
  refine ⟨hstart, hcomplete, fun hrecurs => ?_, ?_⟩
  · obtain ⟨shown, hshown⟩ := (hrejects []).mpr hrecurs
    have hloads : passes (fun _ => true) (loadLayer sharedPreset (installedPreset sharedPreset)
        .declarativeFile "viola.json" []).1 = true := by decide +kernel
    rw [hshown] at hloads
    cases hloads
  · refine (hrejects [["p", "shared.json"]]).mp ⟨"/p/shared.json", ?_⟩
    have hfails : (match (loadLayer sharedPreset (installedPreset sharedPreset) .declarativeFile
        "viola.json" [["p", "shared.json"]]).1 with
      | .ok _ => false
      | .error e => e == .config (.circularInherit "/p/shared.json")) = true := by
      decide +kernel
    split at hfails
    · cases hfails
    · rename_i e he
      rw [he, eq_of_beq hfails]

end LintFront
