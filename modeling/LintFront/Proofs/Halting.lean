import LintFront.Proofs.Cycles
import Mathlib.Data.List.Perm.Subperm

/-!
# Loading comes to an end

A file waits in the chain while its presets are loaded, and what they say decides how far that
goes. Here it goes step by step: one path to load after the other, the files that wait, and the
chain of the moment, with nothing that counts how much is left. It ends nevertheless, since a file
comes into the chain only if it is not there yet, and no more files can come than there are.

* `Waiting`: a file whose presets are being loaded.
* `Loading`, `Loading.step`: a moment of loading, and the next one.
* `Loading.Moves`: all that a step does to the chain.
* `Loading.Sound`: the files that wait are what has come into the chain.
* `Loading.Sound.after`: it is so at every moment.
* `Loading.leads_loadWithin`: the steps give the layer that a large enough budget gives.
* `loadLayer_halts`: loading ends, and the chain has no file twice on the way.
-/

namespace LintFront

variable {disk : Disk} {lookup : PresetLookup}

/-! ## Outcomes apart from the chain -/

theorem except_map_map {ε α β γ : Type} (f : α → β) (g : β → γ) (x : Except ε α) :
    (x.map f).map g = x.map fun a => g (f a) := by
  cases x <;> rfl

/-- Presets and then others. -/
def Presets.append (a b : Presets) : Presets :=
  ⟨a.layers ++ b.layers, a.unresolved ++ b.unresolved⟩

/-- The presets of a name, and then those of the others, where loading gives the chain back. -/
theorem loadPresets_cons_fst {load : String → Chain → Except RunError Layer × Chain}
    (hback : ∀ path chain, (load path chain).2 = chain) (base : Place) (name : String)
    (rest : List String) (chain : Chain) :
    (loadPresets disk lookup base load (name :: rest) chain).1 =
      match disk.locatePreset lookup base name with
      | .error e => .error e
      | .ok none =>
        (loadPresets disk lookup base load rest chain).1.map (Presets.append ⟨[], [name]⟩)
      | .ok (some path) =>
        (load path chain).1.bind fun layer =>
          (loadPresets disk lookup base load rest chain).1.map (Presets.append ⟨[layer], []⟩) := by
  rw [loadPresets_cons]
  cases disk.locatePreset lookup base name with
  | error e => rfl
  | ok found =>
    cases found with
    | none => rcases loadPresets disk lookup base load rest chain with ⟨_ | _, _⟩ <;> rfl
    | some path =>
      dsimp only
      have hfirst := hback path chain
      generalize load path chain = loaded at hfirst ⊢
      obtain ⟨outcome, after⟩ := loaded
      obtain rfl : after = chain := hfirst
      cases outcome with
      | error e => rfl
      | ok layer =>
        dsimp only
        rcases loadPresets disk lookup base load rest after with ⟨_ | _, _⟩ <;> rfl

theorem expandWith_fst (load : String → Chain → Except RunError Layer × Chain)
    (config : Configuration) (base : Place) (chain : Chain) :
    (expandWith disk lookup load config base chain).1 =
      (loadPresets disk lookup base load (config.inherited.getD []) chain).1.map fun presets =>
        presets.below config := by
  unfold expandWith
  rcases loadPresets disk lookup base load (config.inherited.getD []) chain with ⟨_ | _, _⟩ <;> rfl

/-! ## Loading step by step -/

/-- A file whose presets are being loaded: the names that are left, and the presets so far. -/
structure Waiting where
  kind : SourceKind
  place : Place
  config : Configuration
  names : List String
  presets : Presets

/-- What comes next: a path is loaded, the innermost file goes on with its names, or a layer or an
error is given to it. -/
inductive Activity where
  | load (kind : SourceKind) (path : String)
  | expand
  | answer (outcome : Except RunError Layer)

/-- A moment of loading, with the files that wait, the innermost first. -/
structure Loading where
  activity : Activity
  files : List Waiting
  chain : Chain

/-- The layer of a file that has all its presets. -/
def Waiting.layer (file : Waiting) : Layer :=
  let merged := file.presets.below file.config
  ⟨merged.config, ⟨file.place.toPath, file.kind, none⟩ :: merged.sources⟩

/-- A file with more of its presets. -/
def Waiting.add (file : Waiting) (presets : Presets) : Waiting :=
  { file with presets := file.presets.append presets }

/-- A file with these names left. -/
def Waiting.leaving (file : Waiting) (names : List String) : Waiting := { file with names := names }

namespace Loading

/-- The path is located, compared with the chain and read. Only then the file comes into the
chain. -/
def loadFile (disk : Disk) (kind : SourceKind) (path : String) (files : List Waiting)
    (chain : Chain) : Loading :=
  match disk.locate path with
  | .error cause => ⟨.answer (.error (.io path cause)), files, chain⟩
  | .ok place =>
    if chain.contains place then
      ⟨.answer (.error (.config (.circularInherit place.toPath))), files, chain⟩
    else
      match disk.readConfigAt place with
      | .error e => ⟨.answer (.error e), files, chain⟩
      | .ok config =>
        ⟨.expand, ⟨kind, place, config, config.inherited.getD [], ⟨[], []⟩⟩ :: files,
          chain ++ [place]⟩

/-- The innermost file goes on with its next name, or leaves the chain with its layer. -/
def expandFile (disk : Disk) (lookup : PresetLookup) (file : Waiting) (files : List Waiting)
    (chain : Chain) : Loading :=
  match file.names with
  | [] => ⟨.answer (.ok file.layer), files, chain.dropLast⟩
  | name :: rest =>
    match disk.locatePreset lookup file.place.parent name with
    | .error e => ⟨.answer (.error e), files, chain.dropLast⟩
    | .ok none => ⟨.expand, (file.leaving rest).add ⟨[], [name]⟩ :: files, chain⟩
    | .ok (some path) => ⟨.load .preset path, file.leaving rest :: files, chain⟩

/-- The next moment. An error goes through all files that wait. -/
def step (disk : Disk) (lookup : PresetLookup) : Loading → Option Loading
  | ⟨.load kind path, files, chain⟩ => some (loadFile disk kind path files chain)
  | ⟨.expand, file :: files, chain⟩ => some (expandFile disk lookup file files chain)
  | ⟨.answer (.ok layer), file :: files, chain⟩ =>
    some ⟨.expand, file.add ⟨[layer], []⟩ :: files, chain⟩
  | ⟨.answer (.error e), _ :: files, chain⟩ => some ⟨.answer (.error e), files, chain.dropLast⟩
  | ⟨.expand, [], _⟩ => none
  | ⟨.answer _, [], _⟩ => none

/-- The moment after some steps, if loading has not ended before. -/
def after (disk : Disk) (lookup : PresetLookup) (s : Loading) : Nat → Option Loading
  | 0 => some s
  | n + 1 => (after disk lookup s n).bind (step disk lookup)

/-- Loading has ended when no file waits for the answer. -/
theorem step_answer_nil (disk : Disk) (lookup : PresetLookup) (outcome : Except RunError Layer)
    (chain : Chain) : step disk lookup ⟨.answer outcome, [], chain⟩ = none := by
  cases outcome <;> rfl

/-- The places of the files that wait, the outermost first. -/
def places (s : Loading) : List Place := (s.files.map Waiting.place).reverse

/-! ## What a step does -/

section Expand

variable {file : Waiting} {files : List Waiting} {chain : Chain} {name : String}
  {rest : List String}

theorem step_expand_nil (hnames : file.names = []) :
    step disk lookup ⟨.expand, file :: files, chain⟩ =
      some ⟨.answer (.ok file.layer), files, chain.dropLast⟩ := by
  simp only [step, expandFile, hnames]

theorem step_expand_error {e : RunError} (hnames : file.names = name :: rest)
    (hname : disk.locatePreset lookup file.place.parent name = .error e) :
    step disk lookup ⟨.expand, file :: files, chain⟩ =
      some ⟨.answer (.error e), files, chain.dropLast⟩ := by
  simp only [step, expandFile, hnames, hname]

theorem step_expand_left (hnames : file.names = name :: rest)
    (hname : disk.locatePreset lookup file.place.parent name = .ok none) :
    step disk lookup ⟨.expand, file :: files, chain⟩ =
      some ⟨.expand, (file.leaving rest).add ⟨[], [name]⟩ :: files, chain⟩ := by
  simp only [step, expandFile, hnames, hname]

theorem step_expand_found {path : String} (hnames : file.names = name :: rest)
    (hname : disk.locatePreset lookup file.place.parent name = .ok (some path)) :
    step disk lookup ⟨.expand, file :: files, chain⟩ =
      some ⟨.load .preset path, file.leaving rest :: files, chain⟩ := by
  simp only [step, expandFile, hnames, hname]

end Expand

variable {s t u : Loading}

/-- All that a step does to the chain. -/
inductive Moves (disk : Disk) (s t : Loading) : Prop where
  /-- A file that has been read and is not in the chain comes into it. -/
  | enters (place : Place) (config : Configuration) (hread : disk.readConfigAt place = .ok config)
      (hnew : place ∉ s.chain) (hplaces : t.places = s.places ++ [place])
      (hchain : t.chain = s.chain ++ [place])
  /-- The same files wait. -/
  | stays (hplaces : t.places = s.places) (hchain : t.chain = s.chain)
  /-- The innermost file leaves the chain. -/
  | leaves (place : Place) (hplaces : s.places = t.places ++ [place])
      (hchain : t.chain = s.chain.dropLast)

theorem moves_loadFile (kind : SourceKind) (path : String) (files : List Waiting) (chain : Chain) :
    Moves disk ⟨.load kind path, files, chain⟩ (loadFile disk kind path files chain) := by
  unfold loadFile
  split
  · exact .stays rfl rfl
  · rename_i place _
    split
    · exact .stays rfl rfl
    · rename_i hnew
      split
      · exact .stays rfl rfl
      · rename_i config hread
        exact .enters place config hread (by simpa using hnew) (by simp [places]) rfl

theorem moves_expandFile (file : Waiting) (files : List Waiting) (chain : Chain) :
    Moves disk ⟨.expand, file :: files, chain⟩ (expandFile disk lookup file files chain) := by
  unfold expandFile
  split
  · exact .leaves file.place (by simp [places]) rfl
  · split
    · exact .leaves file.place (by simp [places]) rfl
    · exact .stays rfl rfl
    · exact .stays rfl rfl

theorem moves_of_step (h : step disk lookup s = some t) : Moves disk s t := by
  unfold step at h
  split at h
  · cases h
    exact moves_loadFile ..
  · cases h
    exact moves_expandFile ..
  · cases h
    exact .stays rfl rfl
  · rename_i file files chain
    cases h
    exact .leaves file.place (by simp [places]) rfl
  · cases h
  · cases h

/-! ## The chain on the way -/

/-- The files that wait are what has come into the chain: each one once, and none that was in it
before. -/
structure Sound (disk : Disk) (chain : Chain) (s : Loading) : Prop where
  chain_eq : s.chain = chain ++ s.places
  nodup : s.places.Nodup
  new : ∀ place ∈ s.places, place ∉ chain
  isFile : ∀ place ∈ s.places, place ∈ disk.tree.filePlaces []

variable {chain : Chain}

/-- The step lemma: a file comes into the chain after the check only, and the one that leaves it is
the last one that has come. -/
theorem Sound.step (hs : Sound disk chain s) (h : step disk lookup s = some t) :
    Sound disk chain t := by
  cases moves_of_step h with
  | enters place config hread hnew hplaces hchain =>
    -- The check is against the whole chain, thus against the files that wait too.
    rw [hs.chain_eq, List.mem_append, not_or] at hnew
    exact {
      chain_eq := by rw [hchain, hplaces, hs.chain_eq, List.append_assoc]
      nodup := by
        rw [hplaces, (List.perm_append_singleton _ _).nodup_iff]
        exact List.nodup_cons.mpr ⟨hnew.2, hs.nodup⟩
      new := by
        rw [hplaces, List.forall_mem_append]
        exact ⟨hs.new, by simpa using hnew.1⟩
      isFile := by
        rw [hplaces, List.forall_mem_append]
        exact ⟨hs.isFile, by simpa using Disk.mem_filePlaces_of_readConfigAt hread⟩ }
  | stays hplaces hchain =>
    exact {
      chain_eq := by rw [hchain, hplaces, hs.chain_eq]
      nodup := hplaces ▸ hs.nodup
      new := hplaces ▸ hs.new
      isFile := hplaces ▸ hs.isFile }
  | leaves place hplaces hchain =>
    have hsub : t.places ⊆ s.places := hplaces ▸ List.subset_append_left _ _
    exact {
      chain_eq := by
        rw [hchain, hs.chain_eq, hplaces, ← List.append_assoc, List.dropLast_concat]
      nodup := (List.nodup_append.mp (hplaces ▸ hs.nodup)).1
      new := fun p hp => hs.new p (hsub hp)
      isFile := fun p hp => hs.isFile p (hsub hp) }

/-- The run lemma: the same holds of all moments. -/
theorem Sound.after (hs : Sound disk chain s) (n : Nat) :
    ∀ t, after disk lookup s n = some t → Sound disk chain t := by
  induction n with
  | zero =>
    intro t h
    cases h
    exact hs
  | succ n ih =>
    intro t h
    obtain ⟨u, hu, hstep⟩ := Option.bind_eq_some_iff.mp h
    exact (ih u hu).step hstep

/-- No more files wait than were left outside of the chain. -/
theorem Sound.length_le (hs : Sound disk chain s) : s.places.length ≤ unvisited disk chain := by
  refine (List.subperm_of_subset hs.nodup fun place hplace => ?_).length_le
  exact List.mem_filter.mpr ⟨hs.isFile place hplace, by simpa using hs.new place hplace⟩

/-! ## What the steps come to -/

/-- One moment comes some steps after another one. -/
def Leads (disk : Disk) (lookup : PresetLookup) (s t : Loading) : Prop :=
  ∃ n, after disk lookup s n = some t

theorem Leads.refl (s : Loading) : Leads disk lookup s s := ⟨0, rfl⟩

theorem Leads.snoc (h : Leads disk lookup s t) (hstep : step disk lookup t = some u) :
    Leads disk lookup s u := by
  obtain ⟨n, hn⟩ := h
  exact ⟨n + 1, by rw [after, hn]; exact hstep⟩

theorem Leads.trans (h : Leads disk lookup s t) (h' : Leads disk lookup t u) :
    Leads disk lookup s u := by
  obtain ⟨n, hn⟩ := h'
  induction n generalizing u with
  | zero =>
    cases hn
    exact h
  | succ n ih =>
    obtain ⟨v, hv, hstep⟩ := Option.bind_eq_some_iff.mp hn
    exact (ih hv).snoc hstep

theorem Leads.cons (hstep : step disk lookup s = some t) (h : Leads disk lookup t u) :
    Leads disk lookup s u := ((Leads.refl s).snoc hstep).trans h

theorem layer_add_add (file : Waiting) (names : List String) (a b : Presets) :
    (((file.leaving names).add a).add b).layer = (file.add (a.append b)).layer := by
  simp [Waiting.layer, Waiting.add, Waiting.leaving, Presets.append]

/-- The layers that the steps give for the names that are left are those that `load` gives, if they
give the layer of each path. -/
theorem leads_loadPresets {load : String → Chain → Except RunError Layer × Chain}
    (hback : ∀ path chain, (load path chain).2 = chain)
    (hload : ∀ path files, Leads disk lookup ⟨.load .preset path, files, chain⟩
      ⟨.answer (load path chain).1, files, chain⟩)
    (files : List Waiting) (names : List String) : ∀ file : Waiting, file.names = names →
    Leads disk lookup ⟨.expand, file :: files, chain⟩
      ⟨.answer ((loadPresets disk lookup file.place.parent load names chain).1.map fun presets =>
        (file.add presets).layer), files, chain.dropLast⟩ := by
  induction names with
  | nil =>
    intro file hnames
    have hlayer : (file.add ⟨[], []⟩).layer = file.layer := by
      simp [Waiting.layer, Waiting.add, Presets.append]
    refine .cons (step_expand_nil hnames) ?_
    rw [loadPresets, Except.map, hlayer]
    exact .refl _
  | cons name rest ih =>
    intro file hnames
    rw [loadPresets_cons_fst hback]
    cases hname : disk.locatePreset lookup file.place.parent name with
    | error e => exact .cons (step_expand_error hnames hname) (.refl _)
    | ok found =>
      cases found with
      | none =>
        have hrest := ih ((file.leaving rest).add ⟨[], [name]⟩) rfl
        simp only [layer_add_add] at hrest
        refine .cons (step_expand_left hnames hname) ?_
        rwa [except_map_map]
      | some path =>
        have hfirst := hload path (file.leaving rest :: files)
        refine .cons (step_expand_found hnames hname) (hfirst.trans ?_)
        dsimp only
        -- The file gets what has been loaded; with an error it leaves the chain at once.
        cases (load path chain).1 with
        | error e => exact .cons rfl (.refl _)
        | ok layer =>
          have hrest := ih ((file.leaving rest).add ⟨[layer], []⟩) rfl
          simp only [layer_add_add] at hrest
          refine .cons rfl ?_
          dsimp only [Except.bind]
          rwa [except_map_map]

/-- The steps give the layer that a budget gives, if it is enough for the files that are not in the
chain. -/
theorem leads_loadWithin (budget : Nat) : ∀ (kind : SourceKind) (path : String)
    (files : List Waiting) (chain : Chain), unvisited disk chain ≤ budget →
    Leads disk lookup ⟨.load kind path, files, chain⟩
      ⟨.answer (loadWithin disk lookup budget kind path chain).1, files, chain⟩ := by
  induction budget using Nat.strongRecOn with
  | ind budget ih =>
    intro kind path files chain hbudget
    refine .cons rfl ?_
    unfold loadWithin loadFile
    cases disk.locate path with
    | error cause => exact .refl _
    | ok place =>
      dsimp only
      by_cases hmem : chain.contains place = true
      · rw [if_pos hmem, if_pos hmem]
        exact .refl _
      rw [if_neg hmem, if_neg hmem]
      cases hread : disk.readConfigAt place with
      | error e => exact .refl _
      | ok config =>
        -- With the file in the chain one less is left, so that some budget is left for its presets.
        have hless := unvisited_append_lt (Disk.mem_filePlaces_of_readConfigAt hread)
          (by simpa using hmem)
        cases budget with
        | zero => omega
        | succ budget =>
          have hload : ∀ path files, Leads disk lookup
              ⟨.load .preset path, files, chain ++ [place]⟩
              ⟨.answer (loadWithin disk lookup budget .preset path (chain ++ [place])).1, files,
                chain ++ [place]⟩ :=
            fun path files => ih budget (by omega) .preset path files _ (by omega)
          have hpresets := leads_loadPresets (loadWithin_chain budget .preset) hload files _
            ⟨kind, place, config, config.inherited.getD [], ⟨[], []⟩⟩ rfl
          rw [List.dropLast_concat] at hpresets
          dsimp only
          rw [expandWith_fst, except_map_map]
          exact hpresets

end Loading

/-- Loading a file ends after some steps with the layer or the error that `loadLayer` gives and with
the chain as it was. On the way the chain has got some files, each one once and none that was in it
before, and no more than there were outside of it. -/
theorem loadLayer_halts (disk : Disk) (lookup : PresetLookup) (kind : SourceKind) (path : String)
    (chain : Chain) :
    ∃ n, Loading.after disk lookup ⟨.load kind path, [], chain⟩ n =
        some ⟨.answer (loadLayer disk lookup kind path chain).1, [], chain⟩ ∧
      Loading.after disk lookup ⟨.load kind path, [], chain⟩ (n + 1) = none ∧
      ∀ m s, Loading.after disk lookup ⟨.load kind path, [], chain⟩ m = some s →
        Loading.Sound disk chain s ∧ s.places.length ≤ unvisited disk chain := by
  have hleads : Loading.Leads disk lookup ⟨.load kind path, [], chain⟩
      ⟨.answer (loadLayer disk lookup kind path chain).1, [], chain⟩ :=
    Loading.leads_loadWithin _ kind path [] chain (Nat.le_refl _)
  have hstart : Loading.Sound disk chain ⟨.load kind path, [], chain⟩ :=
    ⟨(List.append_nil chain).symm, List.nodup_nil, nofun, nofun⟩
  obtain ⟨n, hn⟩ := hleads
  refine ⟨n, hn, ?_, fun m s hs => ?_⟩
  · rw [Loading.after, hn]
    exact Loading.step_answer_nil ..
  · have hsound := hstart.after m s hs
    exact ⟨hsound, hsound.length_le⟩

/-- A file that names a preset, which names a link back to the file. -/
def comesAround : Disk where
  tree := .directory [
    ("p", .directory [
      ("base.json", .file (some "\x7b'inherit': ['./link.json']\x7d")),
      ("link.json", .link "viola.json"),
      ("viola.json", .file (some "\x7b'inherit': ['./base.json']\x7d"))])]
  cwd := ["p"]

/-- Two files wait at most until the first one comes again. -/
theorem loadLayer_halts_comesAround :
    ∃ n, Loading.after comesAround (installedPreset comesAround)
        ⟨.load .declarativeFile "viola.json", [], []⟩ n =
          some ⟨.answer (.error (.config (.circularInherit "/p/viola.json"))), [], []⟩ ∧
      ∀ m s, Loading.after comesAround (installedPreset comesAround)
        ⟨.load .declarativeFile "viola.json", [], []⟩ m = some s →
          s.chain = s.places ∧ s.places.Nodup ∧ s.places.length ≤ 2 := by
  obtain ⟨n, hend, -, hway⟩ := loadLayer_halts comesAround (installedPreset comesAround)
    .declarativeFile "viola.json" []
  have hfails : (match (loadLayer comesAround (installedPreset comesAround) .declarativeFile
      "viola.json" []).1 with
    | .ok _ => false
    | .error e => e == .config (.circularInherit "/p/viola.json")) = true := by
    decide +kernel
  have hleft : unvisited comesAround [] = 2 := by decide +kernel
  refine ⟨n, ?_, fun m s hs => ?_⟩
  · split at hfails
    · cases hfails
    · rename_i e he
      rw [hend, he, eq_of_beq hfails]
  · obtain ⟨hsound, hlength⟩ := hway m s hs
    exact ⟨hsound.chain_eq, hsound.nodup, hleft ▸ hlength⟩

end LintFront
