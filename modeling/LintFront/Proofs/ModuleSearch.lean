import LintFront.Proofs.Consulted

/-!
# The module of a project

A module is looked for twice: by itself before anything else is read, and again when all of the
configuration is resolved. Both go by what is named on the command line, then by what is named in
the environment, then by the directory of the project. A resolution leaves out what is named in the
environment if the file has been read already, even if its name is that of a module; the search by
itself does not look at that.

* `Resolver.Hides`: the module named in the environment is the file that has been read.
* `Resolver.moduleFile_of_resolve`: the module that a resolution finds.
* `Resolver.locateModule_eq_iff`: the two searches agree unless a module is hidden.
* `Resolver.linked_module_hidden`: a module that is hidden by a link.
-/

namespace LintFront

variable {disk : Disk} {r : Resolver} {explicit : Option String}

/-- A path that is named, if it is that of a module that is there. -/
def Disk.usable (disk : Disk) (given : Option String) : Option String :=
  given.filter fun path => isModulePath path && disk.isFile path

theorem Disk.usable_eq_some_iff {given : Option String} {path : String} :
    disk.usable given = some path ↔
      given = some path ∧ isModulePath path = true ∧ disk.isFile path = true := by
  rw [usable, Option.filter_eq_some_iff, Bool.and_eq_true]

namespace Resolver

/-- What is named in the environment is a module by its name, but the file is the one that is named
on the command line and is no module there. -/
def Hides (r : Resolver) (disk : Disk) (explicit : Option String) (given : String) : Prop :=
  disk.usable (r.environmentPath disk) = some given ∧
    ∃ place, disk.locate given = .ok place ∧ Flagged disk explicit place.toPath

/-! ## What each step finds -/

theorem moduleFile_addNamed {kind : SourceKind} {path : String} {g g' : Gathered}
    (hfile : disk.isFile path = true) (h : r.addNamed disk kind path g = .ok g') :
    g'.moduleFile = g.moduleFile.or (disk.usable (some path)) := by
  unfold addNamed at h
  split at h
  · rename_i hmodule
    have husable : disk.usable (some path) = some path :=
      Disk.usable_eq_some_iff.mpr ⟨rfl, hmodule, hfile⟩
    split at h
    · rename_i hsome
      cases h
      rw [Option.or_of_isSome hsome]
    · rename_i hnone
      cases h
      rw [Option.not_isSome_iff_eq_none.mp hnone, Option.none_or, husable]
  · rename_i hmodule
    obtain ⟨layer, -, h⟩ := bind_eq_ok_iff.mp h
    cases h
    have husable : disk.usable (some path) = none := by
      simp [Disk.usable, Option.filter, hmodule]
    rw [husable, Option.or_none]
    rfl

theorem moduleFile_addExplicit {g : Gathered} (h : r.addExplicit disk explicit {} = .ok g) :
    g.moduleFile = disk.usable (explicit.map disk.absolute) := by
  unfold addExplicit at h
  split at h
  · cases h
    rfl
  · dsimp only at h
    split at h
    · rename_i hfile
      exact moduleFile_addNamed hfile h
    · cases h

/-- What is named in the environment is found unless it is hidden. -/
theorem moduleFile_addEnvironment {g₀ g : Gathered} (h₀ : r.addExplicit disk explicit {} = .ok g₀)
    (h : r.addEnvironment disk g₀ = .ok g) :
    (∀ given, r.Hides disk explicit given → g.moduleFile = g₀.moduleFile) ∧
      ((¬ ∃ given, r.Hides disk explicit given) →
        g.moduleFile = g₀.moduleFile.or (disk.usable (r.environmentPath disk))) := by
  have hseen := (addExplicit_opened h₀).seen_iff
  have hread : ∀ given, alreadyRead disk g₀ given = true ↔
      ∃ place, disk.locate given = .ok place ∧ Flagged disk explicit place.toPath := by
    intro given
    unfold alreadyRead
    cases hplace : disk.locate given with
    | error cause => simp
    | ok place => simp [← hseen]
  unfold addEnvironment at h
  split at h
  · rename_i hnone
    cases h
    refine ⟨fun _ _ => rfl, fun _ => ?_⟩
    rw [hnone]
    exact Option.or_none.symm
  · rename_i given hgiven
    split at h
    · rename_i hread'
      cases h
      refine ⟨fun _ _ => rfl, fun hopen => ?_⟩
      have husable : disk.usable (r.environmentPath disk) = none := by
        refine Option.eq_none_iff_forall_ne_some.mpr fun path hpath => hopen ⟨path, hpath, ?_⟩
        obtain ⟨hsome, -⟩ := Disk.usable_eq_some_iff.mp hpath
        rw [hgiven] at hsome
        cases hsome
        exact (hread _).mp hread'
      rw [husable, Option.or_none]
    · rename_i hunread
      have hopen : ∀ path, ¬ r.Hides disk explicit path := by
        rintro path ⟨hpath, hplace⟩
        obtain ⟨hsome, -⟩ := Disk.usable_eq_some_iff.mp hpath
        rw [hgiven] at hsome
        cases hsome
        exact hunread ((hread _).mpr hplace)
      refine ⟨fun path hpath => absurd hpath (hopen path), fun _ => ?_⟩
      rw [hgiven]
      split at h
      · rename_i hfile
        exact moduleFile_addNamed hfile h
      · rename_i hfile
        cases h
        have husable : disk.usable (some given) = none := by
          simp [Disk.usable, Option.filter, hfile]
        rw [husable, Option.or_none]

theorem moduleFile_walkUp {dirs : List Place} {g g' : Gathered} {boundary : Option Place}
    (h : r.walkUp disk dirs g = .ok (g', boundary)) : g'.moduleFile = g.moduleFile := by
  induction dirs generalizing g with
  | nil =>
    rw [walkUp_nil] at h
    cases h
    rfl
  | cons dir above ih =>
    rw [walkUp_cons] at h
    split at h
    · exact ih h
    · split at h
      · exact ih h
      · split at h
        · cases h
        · split at h
          · cases h
            rfl
          · rw [ih h]
            rfl

theorem moduleFile_addManifest {boundary : Option Place} {dirs : List Place} {g g' : Gathered}
    (h : r.addManifest disk boundary dirs g = .ok g') : g'.moduleFile = g.moduleFile := by
  obtain ⟨found, -, h⟩ := bind_eq_ok_iff.mp h
  cases found with
  | none =>
    cases h
    rfl
  | some manifest =>
    obtain ⟨layer, -, h⟩ := bind_eq_ok_iff.mp h
    cases h
    rfl

theorem moduleFile_addModule (root : Place) (g : Gathered) :
    (addModule disk root g).moduleFile = g.moduleFile.or (disk.findModule root) := by
  unfold addModule
  split
  · rename_i path hsome
    rw [hsome, Option.some_or]
  · rename_i hnone
    rw [hnone, Option.none_or]
    split
    · rename_i hfound
      rw [hfound, hnone]
    · rename_i path hfound
      rw [hfound]

/-! ## The two searches -/

/-- A hidden module is looked for as if it had not been named. -/
theorem moduleFile_of_resolve {project : String} {loaded : Loaded}
    (h : r.resolve disk project explicit = .ok loaded) :
    ∃ root, projectPlace disk project = .ok root ∧
      (∀ given, r.Hides disk explicit given → loaded.moduleFile =
        (disk.usable (explicit.map disk.absolute)).or (disk.findModule root)) ∧
      ((¬ ∃ given, r.Hides disk explicit given) → loaded.moduleFile =
        ((disk.usable (explicit.map disk.absolute)).or
          (disk.usable (r.environmentPath disk))).or (disk.findModule root)) := by
  obtain ⟨root, hroot, g, hg, b, -, rfl⟩ := resolve_eq_ok_iff.mp h
  obtain ⟨g₁, h₁, hg⟩ := bind_eq_ok_iff.mp hg
  obtain ⟨g₂, h₂, hg⟩ := bind_eq_ok_iff.mp hg
  obtain ⟨⟨g₃, boundary⟩, h₃, hg⟩ := bind_eq_ok_iff.mp hg
  obtain ⟨g₄, h₄, hg⟩ := bind_eq_ok_iff.mp hg
  cases hg
  obtain ⟨hhidden, hopen⟩ := moduleFile_addEnvironment h₁ h₂
  have hrest : (addModule disk root g₄).moduleFile =
      g₂.moduleFile.or (disk.findModule root) := by
    rw [moduleFile_addModule, moduleFile_addManifest h₄, moduleFile_walkUp h₃]
  refine ⟨root, hroot, fun given hgiven => ?_, fun hnone => ?_⟩
  · rw [← moduleFile_addExplicit h₁, ← hhidden given hgiven]
    exact hrest
  · rw [← moduleFile_addExplicit h₁, ← hopen hnone]
    exact hrest

theorem locateModule_eq {project : String} {root : Place}
    (h : projectPlace disk project = .ok root) :
    r.locateModule disk project explicit = .ok
      (((disk.usable (explicit.map disk.absolute)).or
        (disk.usable (r.environmentPath disk))).or (disk.findModule root)) := by
  have husable : ∀ given : Option String,
      (given.filter fun path => isModulePath path && disk.isFile path) = disk.usable given :=
    fun _ => rfl
  unfold locateModule
  simp only [husable, h]
  cases disk.usable (explicit.map disk.absolute) with
  | some path => rfl
  | none =>
    cases disk.usable (r.environmentPath disk) with
    | some path => rfl
    | none => rfl

/-- Whenever a project can be resolved, the search for a module finds an answer, too. It is the
module of the resolution unless the module named in the environment is hidden, and then only if it
is also the module of the project's directory. -/
theorem locateModule_eq_iff {project : String} {loaded : Loaded}
    (h : r.resolve disk project explicit = .ok loaded) :
    ∃ root located, projectPlace disk project = .ok root ∧
      r.locateModule disk project explicit = .ok located ∧
      (located = loaded.moduleFile ↔
        ∀ given, r.Hides disk explicit given → disk.findModule root = some given) := by
  obtain ⟨root, hroot, hhidden, hopen⟩ := moduleFile_of_resolve h
  refine ⟨root, _, hroot, locateModule_eq hroot, ?_⟩
  by_cases hhides : ∃ given, r.Hides disk explicit given
  · obtain ⟨given, hgiven⟩ := hhides
    obtain ⟨husable, place, -, flagged, hflagged, hmodule, -⟩ := id hgiven
    -- What hides a module is named on the command line and is none itself.
    have hexplicit : disk.usable (explicit.map disk.absolute) = none := by
      simp [hflagged, Disk.usable, Option.filter, hmodule]
    rw [hhidden given hgiven, hexplicit, husable]
    simp only [Option.none_or, Option.some_or]
    constructor
    · intro hsame given' hgiven'
      have heq := hgiven'.1
      rw [husable] at heq
      rw [← hsame, heq]
    · intro hall
      exact (hall given hgiven).symm
  · rw [hopen hhides]
    exact iff_of_true rfl fun given hgiven => absurd ⟨given, hgiven⟩ hhides

/-- A configuration and two links to it that are named like modules. -/
def linkedModule : Disk where
  tree := .directory [
    ("conf.json", .file (some "\x7b\x7d")),
    ("viola.config.js", .link "conf.json"),
    ("x.js", .link "conf.json")]
  cwd := []

/-- A module that is hidden can still be the one that the project has by itself. -/
theorem locateModule_eq_iff_linked_module :
    ∃ loaded : Loaded, ∃ located,
      (⟨some "viola.config.js", fun _ _ => none, true⟩ : Resolver).resolve linkedModule "/"
          (some "conf.json") = .ok loaded ∧
        (⟨some "viola.config.js", fun _ _ => none, true⟩ : Resolver).Hides linkedModule
          (some "conf.json") "/viola.config.js" ∧
        (⟨some "viola.config.js", fun _ _ => none, true⟩ : Resolver).locateModule linkedModule "/"
          (some "conf.json") = .ok located ∧
        located = loaded.moduleFile := by
  have hrun : passes (fun _ => true)
      ((⟨some "viola.config.js", fun _ _ => none, true⟩ : Resolver).resolve linkedModule "/"
        (some "conf.json")) = true := by
    decide +kernel
  obtain ⟨loaded, h, -⟩ := exists_of_passes hrun
  have hproject : passes (· == []) (projectPlace linkedModule "/") = true := by decide +kernel
  obtain ⟨place, hplace, hempty⟩ := exists_of_passes hproject
  obtain rfl : place = [] := eq_of_beq hempty
  have hfile : ∀ path ∈ ["/conf.json", "/viola.config.js"],
      passes (· == ["conf.json"]) (linkedModule.locate path) = true := by
    decide +kernel
  have hconf : ∀ path ∈ ["/conf.json", "/viola.config.js"],
      linkedModule.locate path = .ok ["conf.json"] := by
    intro path hpath
    obtain ⟨conf, hconf, hlink⟩ := exists_of_passes (hfile path hpath)
    rw [hconf, eq_of_beq hlink]
  have husable : linkedModule.usable ((⟨some "viola.config.js", fun _ _ => none, true⟩ :
      Resolver).environmentPath linkedModule) = some "/viola.config.js" := by
    decide +kernel
  have hflagged : Flagged linkedModule (some "conf.json") (Place.toPath ["conf.json"]) :=
    ⟨"/conf.json", by decide +kernel, by decide +kernel, by decide +kernel, _,
      hconf _ (by simp), rfl⟩
  obtain ⟨root, located, hroot, hlocated, hiff⟩ := locateModule_eq_iff h
  rw [hplace] at hroot
  cases hroot
  refine ⟨loaded, located, h, ⟨husable, _, hconf _ (by simp), hflagged⟩, hlocated, hiff.mpr ?_⟩
  intro given hgiven
  rw [← hgiven.1, husable]
  decide +kernel

/-- The search finds a module that the resolution leaves out, because the file has been read as a
configuration. -/
theorem linked_module_hidden :
    ∃ loaded : Loaded,
      (⟨some "x.js", fun _ _ => none, true⟩ : Resolver).resolve linkedModule "/"
          (some "conf.json") = .ok loaded ∧
        loaded.moduleFile = some "/viola.config.js" ∧
        ∃ located, (⟨some "x.js", fun _ _ => none, true⟩ : Resolver).locateModule linkedModule "/"
          (some "conf.json") = .ok located ∧ located ≠ loaded.moduleFile := by
  have hrun : passes (fun loaded => loaded.moduleFile == some "/viola.config.js")
      ((⟨some "x.js", fun _ _ => none, true⟩ : Resolver).resolve linkedModule "/"
        (some "conf.json")) = true := by
    decide +kernel
  have hsearch : passes (· == some "/x.js")
      ((⟨some "x.js", fun _ _ => none, true⟩ : Resolver).locateModule linkedModule "/"
        (some "conf.json")) = true := by
    decide +kernel
  obtain ⟨loaded, h, hmodule⟩ := exists_of_passes hrun
  obtain ⟨located, hlocated, hfound⟩ := exists_of_passes hsearch
  have hown : loaded.moduleFile = some "/viola.config.js" := eq_of_beq hmodule
  refine ⟨loaded, h, hown, located, hlocated, ?_⟩
  rw [hown, eq_of_beq hfound]
  decide

end Resolver

end LintFront
