import LintFront.Proofs.Consulted

/-!
# How far a resolution looks

A file with `root` set is meant to be the last one that counts: nothing above its directory is
consulted, and everything up to it is. Two things interfere. A file that has been named outright is
not read again by the search, so that its `root` does not end it; and a preset with `root` set ends
the search at the file that names it.

* `Disk.IsEnd`: the nearest directory whose own file sets `root`.
* `BoundedBySearch`: nothing above it is consulted, and everything up to it is.
* `Resolver.Undisturbed`: nothing interferes.
* `Resolver.bounded_iff`: a resolution is bounded when nothing interferes, and only then.
* `Resolver.undisturbed_of_stops_iff`: so it is if the search ends at such files and nowhere else.
* `Resolver.search_not_bounded`: the two cases in which something does.
-/

namespace LintFront

/-! ## The end of a search -/

namespace Disk

/-- The configuration file of a directory sets `root` by itself. -/
def SetsRoot (disk : Disk) (dir : Place) : Prop :=
  ∃ path config, disk.findDeclarative dir = some path ∧ disk.readConfig path = .ok config ∧
    config.root = some true

/-- The nearest directory, from a project upward, whose configuration file sets `root`. -/
def IsEnd (disk : Disk) (root dir : Place) : Prop :=
  dir <+: root ∧ disk.SetsRoot dir ∧
    ∀ lower, lower <+: root → dir.Above lower → ¬ disk.SetsRoot lower

end Disk

/-- A source is a configuration file or a manifest of a directory. -/
def ConfigSource.FoundIn (source : ConfigSource) (dir : Place) : Prop :=
  ∃ name ∈ declarativeFiles ++ manifestFiles, source.path = joinPath dir.toPath name

/-- The sources of a project are bounded by its nearest file that sets `root`: no file found above
its directory is among them, and the files of all directories up to it are. -/
structure BoundedBySearch (disk : Disk) (root : Place) (sources : List ConfigSource) : Prop where
  nothing_above : ∀ dir, disk.IsEnd root dir → ∀ above : Place, above.Above dir →
    ∀ s ∈ sources, s.scope = none → s.kind = .declarativeFile ∨ s.kind = .manifestField →
      ¬ s.FoundIn above
  all_below : ∀ dir, dir <+: root → (∀ last, disk.IsEnd root last → last <+: dir) →
    ∀ path, disk.findDeclarative dir = some path → ∃ s ∈ sources, s.path = path

/-! ## When a resolution is bounded -/

variable {disk : Disk} {r : Resolver} {explicit : Option String}

/-- A place has one directory. -/
theorem foundIn_unique {a b : Place} (ha : a.Proper) (hb : b.Proper) {source : ConfigSource}
    (hfa : source.FoundIn a) (hfb : source.FoundIn b) : a = b := by
  obtain ⟨name, hname, hpath⟩ := hfa
  obtain ⟨name', hname', hpath'⟩ := hfb
  have hproper := properName_of_mem_files (List.mem_append_left moduleFiles hname)
  have hproper' := properName_of_mem_files (List.mem_append_left moduleFiles hname')
  rw [hpath] at hpath'
  exact (Place.joinPath_toPath_inj ha hb hproper hproper' hpath').1

theorem foundIn_of_findDeclarative {dir : Place} {source : ConfigSource}
    (h : disk.findDeclarative dir = some source.path) : source.FoundIn dir := by
  obtain ⟨name, hname, hpath⟩ := Disk.findDeclarative_eq_some h
  exact ⟨name, List.mem_append_left _ hname, hpath⟩

theorem foundIn_of_isNearest {root dir : Place} {manifest : Manifest} {source : ConfigSource}
    (h : Resolver.IsNearest disk root dir manifest) (hpath : source.path = manifest.path) :
    source.FoundIn dir := by
  obtain ⟨name, config, rfl, hname, -⟩ := manifestIn_eq_some h.1 fun _ hname => hname
  exact ⟨name, List.mem_append_right _ hname, hpath⟩

theorem not_mem_moduleFiles {name : String} (h : name ∈ declarativeFiles) : name ∉ moduleFiles := by
  have hall : ∀ name ∈ declarativeFiles, name ∉ moduleFiles := by decide
  exact hall name h

namespace Resolver

/-- Nothing interferes with a search. A directory above the nearest file that sets `root`, if it is
reached nevertheless, has no file but one named outright, and not the nearest manifest. And a
directory up to that file, if it is not reached, has no file but one that is read for something
else: it is named outright, or a preset, or it counts for a directory below. -/
structure Undisturbed (r : Resolver) (disk : Disk) (explicit : Option String) (root : Place) :
    Prop where
  above : ∀ dir, disk.IsEnd root dir → ∀ above : Place, above.Above dir →
    r.Reached disk explicit root above →
      (∀ path, disk.findDeclarative above = some path → r.Named disk explicit path) ∧
      ∀ manifest, ¬ IsNearest disk root above manifest
  below : ∀ dir, dir <+: root → (∀ last, disk.IsEnd root last → last <+: dir) →
    ¬ r.Reached disk explicit root dir → ∀ path, disk.findDeclarative dir = some path →
      ∃ limit stack, r.Reads disk explicit root limit stack ∧
        ∃ s ∈ stack.map Prod.fst, s.path = path

theorem path_limitedBy (limit : Option Place) (s : ConfigSource) :
    (limitedBy limit s).path = s.path := by
  cases limit <;> rfl

theorem Consulted.exists_path {root : Place} {loaded : Loaded}
    (h : r.Consulted disk explicit root loaded) {path : String} :
    (∃ limit stack, r.Reads disk explicit root limit stack ∧
      ∃ s ∈ stack.map Prod.fst, s.path = path) →
    ∃ s ∈ loaded.sources, s.path = path := by
  rintro ⟨limit, stack, hread, s, hs, rfl⟩
  exact ⟨limitedBy limit s, (h.mem_iff _).mpr (Or.inr ⟨limit, stack, hread,
    List.mem_map_of_mem hs⟩), path_limitedBy limit s⟩

section

variable {root : Place} {loaded : Loaded}

theorem Consulted.undisturbed (h : r.Consulted disk explicit root loaded) (hlinks : disk.NoLinks)
    (hcwd : disk.cwd.Proper) (hroot : root.Proper)
    (hbounded : BoundedBySearch disk root loaded.sources) : r.Undisturbed disk explicit root := by
  refine ⟨fun dir hend above habove hreached => ⟨fun path hpath => ?_, fun manifest hnearest => ?_⟩,
    fun dir hdir hlast hunreached path hpath => ?_⟩
  · have hupper := habove.1.trans hend.1
    apply Classical.byContradiction
    intro hunnamed
    obtain ⟨stack, hbrings⟩ := h.readable.found above hupper hreached path hpath hunnamed
    obtain ⟨-, -, place, hplace, config, -, hblock⟩ := id hbrings
    have hs := h.mem_of_reads (.found hupper hreached hbrings) hblock.head_mem
    rw [toPath_of_findDeclarative hlinks hcwd (hroot.mono hupper) hpath hplace] at hs
    exact hbounded.nothing_above dir hend above habove _ hs rfl (Or.inl rfl)
      (foundIn_of_findDeclarative hpath)
  · have hupper := habove.1.trans hend.1
    obtain ⟨stack, hstack⟩ := h.readable.manifest above hupper hreached manifest hnearest
    have hs := h.mem_of_reads (.manifest hupper hreached hnearest hstack) hstack.head_mem
    exact hbounded.nothing_above dir hend above habove _ hs rfl (Or.inr rfl)
      (foundIn_of_isNearest hnearest rfl)
  · obtain ⟨s, hs, rfl⟩ := hbounded.all_below dir hdir hlast path hpath
    rcases (h.mem_iff s).mp hs with ⟨module, hmodule, rfl⟩ | ⟨limit, stack, hread, hmem⟩
    · obtain ⟨name, hname, rfl⟩ := Disk.findDeclarative_eq_some hpath
      have hnot := h.isModule _ hmodule
      rw [isModulePath_joinPath (hroot.mono hdir) (by simp [hname])] at hnot
      exact absurd (of_decide_eq_true hnot) (not_mem_moduleFiles hname)
    · obtain ⟨source, hsource, rfl⟩ := List.mem_map.mp hmem
      exact ⟨limit, stack, hread, source, hsource, (path_limitedBy limit source).symm⟩

theorem Consulted.bounded (h : r.Consulted disk explicit root loaded) (hlinks : disk.NoLinks)
    (hcwd : disk.cwd.Proper) (hroot : root.Proper) (hfree : r.Undisturbed disk explicit root) :
    BoundedBySearch disk root loaded.sources := by
  refine ⟨fun dir hend above habove s hs hscope hkind hfound => ?_,
    fun dir hdir hlast path hpath => ?_⟩
  · have hupper := habove.1.trans hend.1
    rcases hkind with hkind | hkind
    · obtain ⟨dir', path, place, stack, hdir', hreached, hbrings, hplace, hspath⟩ :=
        h.exists_found hs hscope hkind
      have hpath := toPath_of_findDeclarative hlinks hcwd (hroot.mono hdir') hbrings.1 hplace
      rw [← hspath] at hpath
      subst hpath
      obtain rfl := foundIn_unique (hroot.mono hupper) (hroot.mono hdir') hfound
        (foundIn_of_findDeclarative hbrings.1)
      exact hbrings.2.1 ((hfree.above dir hend above habove hreached).1 s.path hbrings.1)
    · obtain ⟨dir', manifest, hdir', hreached, hnearest, hspath⟩ :=
        h.exists_manifest hs hscope hkind
      obtain rfl := foundIn_unique (hroot.mono hupper) (hroot.mono hdir') hfound
        (foundIn_of_isNearest hnearest hspath)
      exact (hfree.above dir hend above habove hreached).2 manifest hnearest
  · refine h.exists_path ?_
    by_cases hreached : r.Reached disk explicit root dir
    · by_cases hnamed : r.Named disk explicit path
      · obtain ⟨stack, hread, hs⟩ := h.readable.named path hnamed
        exact ⟨none, stack, hread, hs⟩
      · obtain ⟨stack, hbrings⟩ := h.readable.found dir hdir hreached path hpath hnamed
        obtain ⟨-, -, place, hplace, config, -, hblock⟩ := id hbrings
        exact ⟨none, stack, .found hdir hreached hbrings, _, hblock.head_mem,
          toPath_of_findDeclarative hlinks hcwd (hroot.mono hdir) hpath hplace⟩
    · exact hfree.below dir hdir hlast hreached path hpath

end

/-- The sources of a resolution are bounded by the nearest file that sets `root`, if and only if
nothing interferes with the search. -/
theorem bounded_iff (hlinks : disk.NoLinks) (hcwd : disk.cwd.Proper) {project : String}
    {root : Place} (hroot : projectPlace disk project = .ok root) {loaded : Loaded}
    (h : r.resolve disk project explicit = .ok loaded) :
    BoundedBySearch disk root loaded.sources ↔ r.Undisturbed disk explicit root := by
  have hconsulted := consulted_of_resolve hlinks hcwd hroot h
  have hproper := proper_of_projectPlace hlinks hcwd hroot
  constructor
  · intro hbounded
    exact hconsulted.undisturbed hlinks hcwd hproper hbounded
  · intro hfree
    exact hconsulted.bounded hlinks hcwd hproper hfree

/-! ## Searches that end at files that set `root` -/

/-- If a file sets `root`, then there is a nearest one that does. -/
theorem exists_isEnd {root dir : Place} (hdir : dir <+: root) (hsets : disk.SetsRoot dir) :
    ∃ last, disk.IsEnd root last ∧ dir <+: last := by
  by_cases hnearest : ∀ lower, lower <+: root → dir.Above lower → ¬ disk.SetsRoot lower
  · exact ⟨dir, ⟨hdir, hsets, hnearest⟩, List.prefix_refl dir⟩
  · simp only [Classical.not_forall, Classical.not_not] at hnearest
    obtain ⟨lower, hlower, hbelow, hsets'⟩ := hnearest
    have hlength := hbelow.length_lt
    obtain ⟨last, hlast, hupper⟩ := exists_isEnd hlower hsets'
    exact ⟨last, hlast, hbelow.1.trans hupper⟩
termination_by root.length - dir.length
decreasing_by
  have hle := hlower.length_le
  omega

/-- A file that is not named outright and names no presets ends the search just when it sets
`root`. -/
theorem stops_iff_setsRoot {dir : Place} {path : String} {config : Configuration}
    (hpath : disk.findDeclarative dir = some path) (hread : disk.readConfig path = .ok config)
    (hunnamed : ¬ r.Named disk explicit path) (hinherited : config.inherited = none) :
    r.Stops disk explicit dir ↔ disk.SetsRoot dir := by
  obtain ⟨place, hplace, hreadAt⟩ := Disk.exists_readConfigAt hread
  have hown : disk.leftToEngine r.presets place.parent config = config := by
    cases config
    cases hinherited
    rfl
  have hnone : PresetStack disk r.presets place.parent (config.inherited.getD []) [] := by
    rw [hinherited]
    exact .nil
  have hbrings :
      r.Brings disk explicit dir path [(⟨place.toPath, .declarativeFile, none⟩, config)] :=
    ⟨hpath, hunnamed, place, hplace, config, hreadAt, [], hnone, by rw [hown]⟩
  constructor
  · rintro ⟨path', stack, hbrings', hroot⟩
    rw [← hbrings.unique hbrings'] at hroot
    exact ⟨path, config, hpath, hread, by simpa using hroot⟩
  · rintro ⟨path', config', hpath', hread', hroot⟩
    rw [hpath] at hpath'
    cases hpath'
    rw [hread] at hread'
    cases hread'
    exact ⟨path, _, hbrings, by simpa using hroot⟩

/-- Nothing interferes with a search that ends at the files that set `root` and nowhere else. -/
theorem undisturbed_of_stops_iff {root : Place}
    (hstops : ∀ dir, dir <+: root → (r.Stops disk explicit dir ↔ disk.SetsRoot dir)) :
    r.Undisturbed disk explicit root := by
  refine ⟨fun dir hend above habove hreached => ?_, fun dir hdir hlast hunreached => ?_⟩
  · exact absurd ((hstops dir hend.1).mpr hend.2.1) (hreached dir hend.1 habove)
  · simp only [Reached, Classical.not_forall, Classical.not_not] at hunreached
    obtain ⟨lower, hlower, hbelow, hstop⟩ := hunreached
    obtain ⟨last, hend, hupper⟩ := exists_isEnd hlower ((hstops lower hlower).mp hstop)
    have hlength := (hupper.trans (hlast last hend)).length_le
    exact absurd hbelow.length_lt (Nat.not_lt_of_le hlength)

/-! ## Cases -/

/-- A project whose file sets `root`, below a directory with another file. -/
def rootBelowFile : Disk where
  tree := .directory [
    ("a", .directory [("viola.json", .file (some "\x7b'root': true\x7d"))]),
    ("viola.json", .file (some "\x7b'skip': ['naming']\x7d"))]
  cwd := []

/-- A project whose file names a preset that sets `root`, below a directory with another file. -/
def presetWithRoot : Disk where
  tree := .directory [
    ("a", .directory [
      ("base.json", .file (some "\x7b'root': true\x7d")),
      ("viola.json", .file (some "\x7b'inherit': ['./base.json']\x7d"))]),
    ("viola.json", .file (some "\x7b'skip': ['naming']\x7d"))]
  cwd := []

theorem noLinks_rootBelowFile : rootBelowFile.NoLinks := by
  refine FileTree.noLinks_directory ?_
  simp [FileTree.noLinks_directory, FileTree.noLinks_file]

theorem noLinks_presetWithRoot : presetWithRoot.NoLinks := by
  refine FileTree.noLinks_directory ?_
  simp [FileTree.noLinks_directory, FileTree.noLinks_file]

theorem isEnd_rootBelowFile : rootBelowFile.IsEnd ["a"] ["a"] := by
  have hread : passes (fun c => c.root == some true)
      (rootBelowFile.readConfig "/a/viola.json") = true := by
    decide +kernel
  obtain ⟨config, hconfig, hset⟩ := exists_of_passes hread
  refine ⟨List.prefix_refl _, ⟨_, config, by decide +kernel, hconfig, eq_of_beq hset⟩, ?_⟩
  intro lower hlower hbelow
  exact absurd hbelow (fun h => h.2 (h.1.eq_of_length_le hlower.length_le))

theorem not_isEnd_presetWithRoot (dir : Place) : ¬ presetWithRoot.IsEnd ["a"] dir := by
  rintro ⟨hdir, ⟨path, config, hpath, hconfig, hset⟩, -⟩
  have hread : ∀ dir ∈ Place.ancestors ["a"], ∀ path,
      presetWithRoot.findDeclarative dir = some path →
        passes (fun c => c.root == none) (presetWithRoot.readConfig path) = true := by
    decide +kernel
  obtain ⟨config', hconfig', hunset⟩ :=
    exists_of_passes (hread dir (Place.mem_ancestors.mpr hdir) path hpath)
  rw [hconfig] at hconfig'
  cases hconfig'
  rw [hset] at hunset
  cases hunset

/-- A file that sets `root` does not end the search if it has been named outright. A preset that
sets `root` ends it, although no configuration file does. -/
theorem search_not_bounded :
    rootBelowFile.NoLinks ∧ presetWithRoot.NoLinks ∧
    (∃ loaded : Loaded,
      (⟨none, fun _ _ => none, true⟩ : Resolver).resolve rootBelowFile "/a"
          (some "/a/viola.json") = .ok loaded ∧
        ¬ BoundedBySearch rootBelowFile ["a"] loaded.sources) ∧
    ∃ loaded : Loaded,
      (⟨none, fun _ _ => none, true⟩ : Resolver).resolve presetWithRoot "/a" none = .ok loaded ∧
        ¬ BoundedBySearch presetWithRoot ["a"] loaded.sources := by
  have hpast : passes
      (fun loaded => loaded.sources.contains ⟨"/viola.json", .declarativeFile, none⟩)
      ((⟨none, fun _ _ => none, true⟩ : Resolver).resolve rootBelowFile "/a"
        (some "/a/viola.json")) = true := by
    decide +kernel
  have hshort : passes
      (fun loaded => loaded.sources.all fun s => s.path != "/viola.json")
      ((⟨none, fun _ _ => none, true⟩ : Resolver).resolve presetWithRoot "/a" none) = true := by
    decide +kernel
  obtain ⟨loaded, hloaded, hsource⟩ := exists_of_passes hpast
  obtain ⟨loaded', hloaded', hsources⟩ := exists_of_passes hshort
  refine ⟨noLinks_rootBelowFile, noLinks_presetWithRoot,
    ⟨loaded, hloaded, fun hbounded => ?_⟩, loaded', hloaded', fun hbounded => ?_⟩
  · have habove : Place.Above [] ["a"] := ⟨List.nil_prefix, by decide⟩
    exact hbounded.nothing_above ["a"] isEnd_rootBelowFile [] habove _
      (List.contains_iff_mem.mp hsource) rfl (Or.inl rfl)
      ⟨"viola.json", by decide, by decide +kernel⟩
  · obtain ⟨s, hs, hpath⟩ := hbounded.all_below [] List.nil_prefix
      (fun last hlast => absurd hlast (not_isEnd_presetWithRoot last)) "/viola.json"
      (by decide +kernel)
    have hother := List.all_eq_true.mp hsources s hs
    rw [hpath] at hother
    cases hother

/-- The search in `rootBelowFile` ends at the files that set `root`, if nothing is named
outright. -/
theorem stops_iff_rootBelowFile {dir : Place} (hdir : dir <+: ["a"]) :
    (⟨none, fun _ _ => none, true⟩ : Resolver).Stops rootBelowFile none dir ↔
      rootBelowFile.SetsRoot dir := by
  have hfiles : ∀ dir ∈ Place.ancestors ["a"],
      (rootBelowFile.findDeclarative dir).any (fun path =>
        passes (fun c => c.inherited == none) (rootBelowFile.readConfig path)) = true := by
    decide +kernel
  obtain ⟨path, hpath, hread⟩ :=
    (Option.any_eq_true _ _).mp (hfiles dir (Place.mem_ancestors.mpr hdir))
  obtain ⟨config, hconfig, hinherited⟩ := exists_of_passes hread
  refine stops_iff_setsRoot hpath hconfig ?_ (eq_of_beq hinherited)
  rintro (⟨given, hgiven, -⟩ | ⟨given, hgiven, -⟩) <;> cases hgiven

/-- A search that comes to a file that sets `root` by itself ends there. -/
theorem bounded_root_below_file :
    ∃ loaded : Loaded,
      rootBelowFile.NoLinks ∧ rootBelowFile.cwd.Proper ∧
        projectPlace rootBelowFile "/a" = .ok ["a"] ∧
        (⟨none, fun _ _ => none, true⟩ : Resolver).resolve rootBelowFile "/a" none = .ok loaded ∧
        rootBelowFile.IsEnd ["a"] ["a"] ∧
        BoundedBySearch rootBelowFile ["a"] loaded.sources := by
  have hrun : passes (fun _ => true)
      ((⟨none, fun _ _ => none, true⟩ : Resolver).resolve rootBelowFile "/a" none) = true := by
    decide +kernel
  have hproject :
      passes (fun place => place == ["a"]) (projectPlace rootBelowFile "/a") = true := by
    decide +kernel
  obtain ⟨loaded, h, -⟩ := exists_of_passes hrun
  obtain ⟨place, hplace, hroot⟩ := exists_of_passes hproject
  obtain rfl := eq_of_beq hroot
  have hcwd : rootBelowFile.cwd.Proper := by
    intro name hname
    cases hname
  have hbounded := (bounded_iff noLinks_rootBelowFile hcwd hplace h).mpr
    (undisturbed_of_stops_iff fun _ => stops_iff_rootBelowFile)
  exact ⟨loaded, noLinks_rootBelowFile, hcwd, hplace, h, isEnd_rootBelowFile, hbounded⟩

end Resolver

end LintFront
