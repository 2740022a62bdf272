import LintFront.Proofs.Named

/-!
# What a resolution consults

The sources of a resolution are those of the files named outright, of what the search upward brings
in, of the nearest manifest with a configuration and of the files of the directories below.

* `Walk.found_eq_some_iff`: the nearest manifest.
* `Resolver.Sweep`: what a scan of the directories below does, step by step.
* `Resolver.mem_scanBelow_iff`: what these directories bring in.
* `Resolver.Reads`: the stacks that a resolution reads.
* `Resolver.Consulted`: the sources of a project are those of the stacks that are read.
* `Resolver.consulted_of_resolve`: so they are after a resolution.
-/

namespace LintFront

variable {disk : Disk} {r : Resolver} {explicit : Option String}

/-! ## The nearest manifest -/

/-- A manifest of a directory holds a configuration. -/
def Disk.HoldsManifest (disk : Disk) (dir : Place) : Prop :=
  ∃ manifest, disk.manifestIn dir manifestFiles = .ok (some manifest)

namespace Walk

variable {dirs visited : List Place} {boundary : Option Place} {sources : List ConfigSource}

theorem mem_of_boundary (h : Walk r disk explicit dirs visited boundary sources) {dir : Place}
    (hdir : boundary = some dir) : dir ∈ dirs := by
  induction h with
  | done => cases hdir
  | pass _ _ ih => exact List.mem_cons_of_mem _ (ih hdir)
  | stop =>
    cases hdir
    exact List.mem_cons_self
  | next _ _ _ ih => exact List.mem_cons_of_mem _ (ih hdir)

/-- The manifest is looked for where the walk has been. -/
theorem findManifest_eq (h : Walk r disk explicit dirs visited boundary sources)
    (hdirs : dirs.Nodup) :
    disk.findManifest boundary dirs = disk.findManifest none visited := by
  have hgoes : ∀ {dir : Place} {above visited : List Place} {boundary : Option Place},
      boundary ≠ some dir →
        disk.findManifest boundary above = disk.findManifest none visited →
        disk.findManifest boundary (dir :: above) = disk.findManifest none (dir :: visited) := by
    intro dir above visited boundary hne ih
    rw [findManifest_cons, findManifest_cons, if_neg hne, if_neg (by simp), ih]
  induction h with
  | done => rfl
  | pass _ hrest ih =>
    obtain ⟨hdir, habove⟩ := List.nodup_cons.mp hdirs
    exact hgoes (fun heq => hdir (hrest.mem_of_boundary heq)) (ih habove)
  | stop =>
    rw [findManifest_cons, findManifest_cons, if_pos rfl, if_neg (by simp), findManifest_nil]
  | next _ _ hrest ih =>
    obtain ⟨hdir, habove⟩ := List.nodup_cons.mp hdirs
    exact hgoes (fun heq => hdir (hrest.mem_of_boundary heq)) (ih habove)

end Walk

/-- What the search for a manifest finds is the first one. -/
theorem findManifest_first {dirs : List Place} {found : Option Manifest}
    (h : disk.findManifest none dirs = .ok found) :
    (found = none ∧ ∀ dir ∈ dirs, ¬ disk.HoldsManifest dir) ∨
      ∃ manifest before dir after, found = some manifest ∧ dirs = before ++ dir :: after ∧
        disk.manifestIn dir manifestFiles = .ok (some manifest) ∧
        ∀ lower ∈ before, ¬ disk.HoldsManifest lower := by
  induction dirs with
  | nil =>
    rw [findManifest_nil] at h
    cases h
    exact Or.inl ⟨rfl, by simp⟩
  | cons dir above ih =>
    rw [findManifest_cons] at h
    split at h
    · cases h
    · rename_i manifest hmanifest
      cases h
      exact Or.inr ⟨manifest, [], dir, above, rfl, rfl, hmanifest, by simp⟩
    · rename_i hnone
      have hholds : ¬ disk.HoldsManifest dir := by
        rintro ⟨manifest, hmanifest⟩
        rw [hnone] at hmanifest
        cases hmanifest
      rw [if_neg (by simp)] at h
      rcases ih h with ⟨hfound, hall⟩ | ⟨manifest, before, dir', after, hfound, rfl, hin, hall⟩
      · exact Or.inl ⟨hfound, List.forall_mem_cons.mpr ⟨hholds, hall⟩⟩
      · exact Or.inr ⟨manifest, dir :: before, dir', after, hfound, rfl, hin,
          List.forall_mem_cons.mpr ⟨hholds, hall⟩⟩

theorem mem_before_of_above {dirs before after : List Place} {dir lower : Place}
    (hdirs : dirs.Pairwise fun lower upper => upper.Above lower)
    (hsplit : before ++ dir :: after <+: dirs) (hmem : lower ∈ dirs) (hbelow : dir.Above lower) :
    lower ∈ before := by
  obtain ⟨rest, rfl⟩ := hsplit
  rw [List.append_assoc] at hmem hdirs
  rcases List.mem_append.mp hmem with hmem | hmem
  · exact hmem
  · have hafter := (List.pairwise_cons.mp (List.pairwise_append.mp hdirs).2.1).1
    rcases List.mem_cons.mp hmem with rfl | hmem
    · exact absurd rfl hbelow.2
    · exact absurd hbelow (hafter lower hmem).asymm

/-- What a walk finds is the nearest manifest. -/
theorem Walk.found_eq_some_iff {dirs visited : List Place} {boundary : Option Place}
    {sources : List ConfigSource} (h : Walk r disk explicit dirs visited boundary sources)
    (hdirs : dirs.Pairwise fun lower upper => upper.Above lower) {found : Option Manifest}
    (hfound : disk.findManifest boundary dirs = .ok found) {manifest : Manifest} :
    found = some manifest ↔ ∃ dir ∈ visited,
      disk.manifestIn dir manifestFiles = .ok (some manifest) ∧
        ∀ lower ∈ dirs, dir.Above lower → ¬ disk.HoldsManifest lower := by
  have hnodup : dirs.Nodup := hdirs.imp fun hab => hab.2.symm
  rw [h.findManifest_eq hnodup] at hfound
  rcases findManifest_first hfound with
    ⟨rfl, hnone⟩ | ⟨nearest, before, dir, after, rfl, hsplit, hin, hbefore⟩
  · refine iff_of_false (by simp) ?_
    rintro ⟨dir, hdir, hmanifest, -⟩
    exact hnone dir hdir ⟨manifest, hmanifest⟩
  · have hupper : before ++ dir :: after <+: dirs := hsplit ▸ h.isPrefix_visited
    constructor
    · rintro ⟨⟩
      exact ⟨dir, by simp [hsplit], hin, fun lower hlower hbelow =>
        hbefore lower (mem_before_of_above hdirs hupper hlower hbelow)⟩
    · rintro ⟨dir', hdir', hmanifest, hnearest⟩
      have hsame : dir' = dir := by
        rw [hsplit] at hdir'
        rcases List.mem_append.mp hdir' with hmem | hmem
        · exact absurd ⟨_, hmanifest⟩ (hbefore dir' hmem)
        · rcases List.mem_cons.mp hmem with rfl | hmem
          · rfl
          · have hpairs := (List.pairwise_append.mp (hdirs.sublist hupper.sublist)).2.1
            have habove := (List.pairwise_cons.mp hpairs).1 dir' hmem
            exact absurd ⟨_, hin⟩ (hnearest dir (hupper.subset (by simp)) habove)
      rw [hsame, hin] at hmanifest
      cases hmanifest
      rfl

namespace Resolver

/-- The stack of a manifest. -/
def IsStackOf (r : Resolver) (disk : Disk) (manifest : Manifest) (stack : Stack) : Prop :=
  IsBlock disk r.presets ⟨manifest.path, .manifestField, none⟩ manifest.config manifest.directory
    stack

theorem addManifest_sources {boundary : Option Place} {dirs : List Place} {g g' : Gathered}
    (h : r.addManifest disk boundary dirs g = .ok g') :
    ∃ found, disk.findManifest boundary dirs = .ok found ∧ g'.moduleFile = g.moduleFile ∧
      g'.seen = g.seen ∧
      (∀ manifest, found = some manifest → ∃ stack, r.IsStackOf disk manifest stack) ∧
      ∀ s, s ∈ g'.sources ↔ s ∈ g.sources ∨ ∃ stack,
        (∃ manifest, found = some manifest ∧ r.IsStackOf disk manifest stack) ∧
          s ∈ stack.map Prod.fst := by
  obtain ⟨found, hfound, h⟩ := bind_eq_ok_iff.mp h
  cases found with
  | none =>
    cases h
    exact ⟨none, hfound, rfl, rfl, by simp, by simp⟩
  | some manifest =>
    obtain ⟨layer, hlayer, h⟩ := bind_eq_ok_iff.mp h
    cases h
    obtain ⟨dir, -, name, config, rfl, hmanifest⟩ := findManifest_eq_some hfound
    obtain ⟨stack, hblock, hexplains⟩ :=
      expandWith_explained (loadWithin_explained _ .preset) hmanifest.wellFormed
        hlayer ⟨joinPath dir.toPath name, .manifestField, none⟩
    have hsources := hexplains.sources
    refine ⟨_, hfound, rfl, rfl, fun m hm => ?_, fun s => ?_⟩
    · cases hm
      exact ⟨stack, hblock⟩
    · refine List.mem_append.trans (or_congr_right ?_)
      dsimp only at hsources ⊢
      rw [hsources]
      constructor
      · intro hs
        exact ⟨stack, ⟨_, rfl, hblock⟩, hs⟩
      · rintro ⟨stack', ⟨m, hm, hblock'⟩, hs⟩
        cases hm
        rwa [hblock.unique hblock']

theorem addModule_madeOf {root : Place} (hroot : root.Proper) {g : Gathered} {reads : Stack → Prop}
    (hg : g.MadeOf reads) : (addModule disk root g).MadeOf reads := by
  unfold addModule
  split
  · exact hg
  · rename_i hnone
    split
    · exact hg
    · rename_i path hpath
      obtain ⟨name, hname, rfl⟩ := List.mem_map.mp (List.mem_of_find?_eq_some hpath)
      have hmodule : isModulePath (joinPath root.toPath name) = true := by
        rw [isModulePath_joinPath hroot (by simp [hname])]
        simpa using hname
      refine hg.addModule hnone hmodule ?_ fun s => ?_
      · rfl
      · exact List.mem_cons.trans or_comm

theorem seen_addModule (root : Place) (g : Gathered) : (addModule disk root g).seen = g.seen := by
  unfold addModule
  split
  · rfl
  · split <;> rfl

/-! ## Directories below -/

theorem scanBelow_nil (r : Resolver) (root : Place) (seen : List String) (b : Below) :
    r.scanBelow disk root seen [] b = .ok b := by
  delta scanBelow
  rfl

theorem scanBelow_cons (r : Resolver) (root : Place) (seen : List String) (names : Place)
    (rest : List Place) (b : Below) :
    r.scanBelow disk root seen (names :: rest) b =
      match disk.findDeclarative (root ++ names) with
      | none => r.scanBelow disk root seen rest b
      | some path =>
        if seen.contains path then r.scanBelow disk root seen rest b
        else
          match r.load disk .declarativeFile path with
          | .error e => .error e
          | .ok layer => r.scanBelow disk root seen rest (addDirectory names layer b) := by
  delta scanBelow
  rfl

/-- A source of a directory below a project is limited to it. -/
def limitedBy : Option Place → ConfigSource → ConfigSource
  | none, s => s
  | some names, s => s.limitedTo (escapedDirectory names ++ "/**")

/-- What the file of a directory below a project brings in, if it has not been read. -/
def BringsBelow (r : Resolver) (disk : Disk) (root : Place) (isRead : String → Prop) (names : Place)
    (stack : Stack) : Prop :=
  ∃ path place, disk.findDeclarative (root ++ names) = some path ∧ ¬ isRead path ∧
    disk.locate path = .ok place ∧ IsFileBlock disk r.presets .declarativeFile place stack

/-- What a scan of directories makes of the scopes and sources that are there before: a directory
without a file that has not been read is passed, that of any other one is brought in. -/
inductive Sweep (r : Resolver) (disk : Disk) (root : Place) (seen : List String) :
    List Place → Below → Below → Prop
  | done {b : Below} : Sweep r disk root seen [] b b
  | pass {names : Place} {rest : List Place} {b b' : Below}
      (hread : ∀ path, disk.findDeclarative (root ++ names) = some path → path ∈ seen)
      (hrest : Sweep r disk root seen rest b b') : Sweep r disk root seen (names :: rest) b b'
  | next {names : Place} {rest : List Place} {path : String} {layer : Layer} {b b' : Below}
      (hpath : disk.findDeclarative (root ++ names) = some path) (hnew : path ∉ seen)
      (hlayer : r.load disk .declarativeFile path = .ok layer)
      (hrest : Sweep r disk root seen rest (addDirectory names layer b) b') :
      Sweep r disk root seen (names :: rest) b b'

theorem sweep_of_scanBelow {root : Place} {seen : List String} {dirs : List Place} {b b' : Below}
    (h : r.scanBelow disk root seen dirs b = .ok b') : Sweep r disk root seen dirs b b' := by
  induction dirs generalizing b with
  | nil =>
    rw [scanBelow_nil] at h
    cases h
    exact .done
  | cons names rest ih =>
    rw [scanBelow_cons] at h
    split at h
    · rename_i hnone
      exact .pass (by simp [hnone]) (ih h)
    · rename_i path hpath
      split at h
      · rename_i hold
        exact .pass (by simpa [hpath] using hold) (ih h)
      · rename_i hnew
        split at h
        · cases h
        · rename_i layer hlayer
          exact .next hpath (by simpa using hnew) hlayer (ih h)

theorem mem_scanBelow_iff {root : Place} {seen : List String} {dirs : List Place} {b b' : Below}
    (h : r.scanBelow disk root seen dirs b = .ok b') {s : ConfigSource} :
    s ∈ b'.sources ↔ s ∈ b.sources ∨ ∃ names ∈ dirs, ∃ stack,
      r.BringsBelow disk root (· ∈ seen) names stack ∧
        s ∈ (stack.map Prod.fst).map (limitedBy (some names)) := by
  replace h := sweep_of_scanBelow h
  induction h with
  | done => simp
  | @pass names rest b b' hread _ ih =>
    have hnothing : ∀ stack, ¬ r.BringsBelow disk root (· ∈ seen) names stack := by
      rintro stack ⟨path, place, hpath, hnew, -⟩
      exact hnew (hread path hpath)
    simp only [ih, List.mem_cons, or_and_right, exists_or, exists_eq_left, hnothing, false_and,
      exists_false, false_or]
  | @next names rest path layer b b' hpath hnew hlayer _ ih =>
    obtain ⟨place, stack, hplace, hblock, hexplains⟩ := load_explained hlayer
    have hadded : (addDirectory names layer b).sources =
        b.sources ++ (stack.map Prod.fst).map (limitedBy (some names)) := by
      rw [← hexplains.sources]
      rfl
    have hbrings : ∀ read, r.BringsBelow disk root (· ∈ seen) names read ↔ read = stack := by
      refine fun read => ⟨?_, ?_⟩
      · rintro ⟨path', place', hpath', -, hplace', hblock'⟩
        rw [hpath] at hpath'
        cases hpath'
        rw [hplace] at hplace'
        cases hplace'
        exact hblock'.unique hblock
      · rintro rfl
        exact ⟨path, place, hpath, hnew, hplace, hblock⟩
    simp only [ih, List.mem_cons, or_and_right, exists_or, exists_eq_left, hadded, hbrings,
      List.mem_append, or_assoc]

/-! ## The two parts of a resolution -/

/-- What comes of a project and of the directories below it. -/
def Loaded.joined (g : Gathered) (b : Below) : Loaded where
  config := .ofMerged (Configuration.mergeAll g.layers) b.scopes
  sources := g.sources.reverse ++ b.sources
  moduleFile := g.moduleFile

/-- What the directories below a project bring in if they are searched. -/
def below (r : Resolver) (disk : Disk) (root : Place) (g : Gathered) : Except RunError Below :=
  if r.scan then r.scanBelow disk root g.seen (scannedDirectories disk root) {} else .ok {}

theorem resolve_eq (project : String) :
    r.resolve disk project explicit = projectPlace disk project >>= fun root =>
      r.gather disk root explicit >>= fun g =>
        r.below disk root g >>= fun b => .ok (Loaded.joined g b) := by
  unfold resolve below
  cases r.scan <;> rfl

theorem resolve_eq_ok_iff {project : String} {loaded : Loaded} :
    r.resolve disk project explicit = .ok loaded ↔
      ∃ root, projectPlace disk project = .ok root ∧
        ∃ g, r.gather disk root explicit = .ok g ∧
          ∃ b, r.below disk root g = .ok b ∧ Loaded.joined g b = loaded := by
  simp only [resolve_eq, bind_eq_ok_iff, Except.ok.injEq]

/-! ## All sources -/

/-- A place is found again by the path under which a directory has its configuration file. -/
theorem toPath_of_findDeclarative (hlinks : disk.NoLinks) (hcwd : disk.cwd.Proper) {dir : Place}
    (hdir : dir.Proper) {path : String} {place : Place}
    (hpath : disk.findDeclarative dir = some path) (hplace : disk.locate path = .ok place) :
    place.toPath = path := by
  obtain ⟨name, hname, rfl⟩ := Disk.findDeclarative_eq_some hpath
  have hproper : ProperName name := properName_of_mem_files (by simp [hname])
  rw [Place.joinPath_toPath hdir hproper] at hplace ⊢
  rw [Disk.locate_toPath hlinks hcwd (hdir.append (Place.proper_singleton hproper)) (by simp)
    hplace]

theorem proper_of_projectPlace (hlinks : disk.NoLinks) (hcwd : disk.cwd.Proper) {project : String}
    {root : Place} (hroot : projectPlace disk project = .ok root) : root.Proper := by
  unfold projectPlace at hroot
  split at hroot
  · rename_i place hplace
    cases hroot
    exact Disk.proper_of_locate hlinks hcwd hplace
  · cases hroot

/-- A path is that of a file named outright or of a file that the search has found. -/
def HasRead (r : Resolver) (disk : Disk) (explicit : Option String) (root : Place) (path : String) :
    Prop :=
  r.Named disk explicit path ∨ ∃ dir : Place, dir <+: root ∧ r.Reached disk explicit root dir ∧
    disk.findDeclarative dir = some path

/-- A manifest is the nearest one that holds a configuration. -/
def IsNearest (disk : Disk) (root dir : Place) (manifest : Manifest) : Prop :=
  disk.manifestIn dir manifestFiles = .ok (some manifest) ∧
    ∀ lower : Place, lower <+: root → dir.Above lower → ¬ disk.HoldsManifest lower

/-- The stacks that a resolution reads, each one for the whole project or for a directory below:
those of the files named outright, of the files found, of the nearest manifest, and of the files of
directories below. -/
inductive Reads (r : Resolver) (disk : Disk) (explicit : Option String) (root : Place) :
    Option Place → Stack → Prop
  | flag {given : String} {stack : Stack} (hgiven : explicit.map disk.absolute = some given)
      (hopens : r.Opens disk .explicitFlag given stack) : Reads r disk explicit root none stack
  | environment {given : String} {stack : Stack} (hgiven : r.environmentPath disk = some given)
      (hfresh : ∀ place, disk.locate given = .ok place → ¬ Flagged disk explicit place.toPath)
      (hopens : r.Opens disk .environmentVariable given stack) :
      Reads r disk explicit root none stack
  | found {dir : Place} {path : String} {stack : Stack} (hdir : dir <+: root)
      (hreached : r.Reached disk explicit root dir)
      (hbrings : r.Brings disk explicit dir path stack) : Reads r disk explicit root none stack
  | manifest {dir : Place} {manifest : Manifest} {stack : Stack} (hdir : dir <+: root)
      (hreached : r.Reached disk explicit root dir)
      (hnearest : IsNearest disk root dir manifest) (hstack : r.IsStackOf disk manifest stack) :
      Reads r disk explicit root none stack
  | below {names : Place} {stack : Stack} (hscan : r.scan = true)
      (hnames : names ∈ scannedDirectories disk root)
      (hbrings : r.BringsBelow disk root (r.HasRead disk explicit root) names stack) :
      Reads r disk explicit root (some names) stack

/-- Of what is read for the whole project, a source is a preset, or it is named outright, found by
the search, or the nearest manifest. -/
theorem Reads.mem_cases {root : Place} {stack : Stack}
    (h : r.Reads disk explicit root none stack) {s : ConfigSource} (hs : s ∈ stack.map Prod.fst) :
    s.kind = .preset ∨
      (s.kind ∈ [.explicitFlag, .environmentVariable] ∧ r.Named disk explicit s.path) ∨
      (∃ dir path place, dir <+: root ∧ r.Reached disk explicit root dir ∧
        r.Brings disk explicit dir path stack ∧ disk.locate path = .ok place ∧
        s = ⟨place.toPath, .declarativeFile, none⟩) ∨
      ∃ dir manifest, dir <+: root ∧ r.Reached disk explicit root dir ∧
        IsNearest disk root dir manifest ∧ s = ⟨manifest.path, .manifestField, none⟩ := by
  cases h with
  | flag hgiven hopens =>
    obtain ⟨hmodule, hfile, place, hplace, config, -, hblock⟩ := hopens
    rcases hblock.mem_sources hs with rfl | ⟨hpreset, -⟩
    · exact Or.inr (Or.inl ⟨by simp, Or.inl ⟨_, hgiven, hmodule, hfile, place, hplace, rfl⟩⟩)
    · exact Or.inl hpreset
  | environment hgiven hfresh hopens =>
    obtain ⟨hmodule, hfile, place, hplace, config, -, hblock⟩ := hopens
    rcases hblock.mem_sources hs with rfl | ⟨hpreset, -⟩
    · exact Or.inr (Or.inl ⟨by simp, Or.inr ⟨_, hgiven, hmodule, hfile, place, hplace, rfl⟩⟩)
    · exact Or.inl hpreset
  | found hdir hreached hbrings =>
    obtain ⟨-, -, place, hplace, config, -, hblock⟩ := id hbrings
    rcases hblock.mem_sources hs with rfl | ⟨hpreset, -⟩
    · exact Or.inr (Or.inr (Or.inl ⟨_, _, place, hdir, hreached, hbrings, hplace, rfl⟩))
    · exact Or.inl hpreset
  | manifest hdir hreached hnearest hstack =>
    rcases hstack.mem_sources hs with rfl | ⟨hpreset, -⟩
    · exact Or.inr (Or.inr (Or.inr ⟨_, _, hdir, hreached, hnearest, rfl⟩))
    · exact Or.inl hpreset

/-- What is to be read for the whole project can be read. -/
structure Readable (r : Resolver) (disk : Disk) (explicit : Option String) (root : Place) :
    Prop where
  named : ∀ path, r.Named disk explicit path →
    ∃ stack, r.Reads disk explicit root none stack ∧ ∃ s ∈ stack.map Prod.fst, s.path = path
  found : ∀ dir : Place, dir <+: root → r.Reached disk explicit root dir →
    ∀ path, disk.findDeclarative dir = some path → ¬ r.Named disk explicit path →
      ∃ stack, r.Brings disk explicit dir path stack
  manifest : ∀ dir : Place, dir <+: root → r.Reached disk explicit root dir →
    ∀ manifest, IsNearest disk root dir manifest → ∃ stack, r.IsStackOf disk manifest stack

theorem reads_none_iff {root : Place} {stack : Stack} :
    r.Reads disk explicit root none stack ↔
      (((∃ given, explicit.map disk.absolute = some given ∧
          r.Opens disk .explicitFlag given stack) ∨
        ∃ given, r.environmentPath disk = some given ∧
          (∀ place, disk.locate given = .ok place → ¬ Flagged disk explicit place.toPath) ∧
          r.Opens disk .environmentVariable given stack) ∨
        ∃ dir, (dir <+: root ∧ r.Reached disk explicit root dir) ∧
          ∃ path, r.Brings disk explicit dir path stack) ∨
        ∃ manifest, (∃ dir, dir <+: root ∧ r.Reached disk explicit root dir ∧
          IsNearest disk root dir manifest) ∧ r.IsStackOf disk manifest stack := by
  constructor
  · intro h
    cases h with
    | flag hgiven hopens => exact Or.inl (Or.inl (Or.inl ⟨_, hgiven, hopens⟩))
    | environment hgiven hfresh hopens =>
      exact Or.inl (Or.inl (Or.inr ⟨_, hgiven, hfresh, hopens⟩))
    | found hdir hreached hbrings => exact Or.inl (Or.inr ⟨_, ⟨hdir, hreached⟩, _, hbrings⟩)
    | manifest hdir hreached hnearest hstack =>
      exact Or.inr ⟨_, ⟨_, hdir, hreached, hnearest⟩, hstack⟩
  · rintro (((⟨given, hgiven, hopens⟩ | ⟨given, hgiven, hfresh, hopens⟩) |
      ⟨dir, ⟨hdir, hreached⟩, path, hbrings⟩) | ⟨manifest, ⟨dir, hdir, hreached, hnearest⟩, hstack⟩)
    · exact .flag hgiven hopens
    · exact .environment hgiven hfresh hopens
    · exact .found hdir hreached hbrings
    · exact .manifest hdir hreached hnearest hstack

/-- What is gathered for the whole project are the stacks that are read for it. -/
theorem gather_consulted {root : Place} (hroot : root.Proper) {g : Gathered}
    (h : r.gather disk root explicit = .ok g) :
    g.MadeOf (r.Reads disk explicit root none) ∧
      (∀ path, path ∈ g.seen ↔ r.HasRead disk explicit root path) ∧
      r.Readable disk explicit root := by
  obtain ⟨g₁, h₁, h⟩ := bind_eq_ok_iff.mp h
  obtain ⟨g₂, h₂, h⟩ := bind_eq_ok_iff.mp h
  obtain ⟨⟨g₃, boundary⟩, h₃, h⟩ := bind_eq_ok_iff.mp h
  obtain ⟨g₄, h₄, h⟩ := bind_eq_ok_iff.mp h
  cases h
  have hopened := addEnvironment_opened (addExplicit_opened h₁) h₂
  have hpairs := Place.pairwise_ancestors root
  have hnodup : root.ancestors.Nodup := hpairs.imp fun hab => hab.2.symm
  obtain ⟨visited, walked, hwalked, hmodule₃, hseen₃, hwalk⟩ := walk_of_walkUp hnodup
    (fun dir hdir => hroot.mono (Place.mem_ancestors.mp hdir))
    (fun dir _ path _ => hopened.seen_iff path) h₃
  obtain ⟨found, hfound, hmodule₄, hseen₄, hstack, hsources₄⟩ := addManifest_sources h₄
  have hvisited : ∀ dir, dir ∈ visited ↔ dir <+: root ∧ r.Reached disk explicit root dir :=
    fun _ => hwalk.mem_visited_iff_reached
  have hnearest : ∀ manifest, found = some manifest ↔ ∃ dir, dir <+: root ∧
      r.Reached disk explicit root dir ∧ IsNearest disk root dir manifest := by
    intro manifest
    simp only [hwalk.found_eq_some_iff hpairs hfound, hvisited, and_assoc, IsNearest,
      Place.mem_ancestors]
  have hmade := (hopened.toMadeOf.add hmodule₃ fun s => by
    rw [hwalked, List.mem_append, hwalk.mem_sources_iff]).add hmodule₄ hsources₄
  refine ⟨addModule_madeOf hroot (hmade.congr fun stack => ?_), fun path => ?_, ?_, ?_, ?_⟩
  · simp only [reads_none_iff, hvisited, hnearest]
  · rw [seen_addModule, hseen₄, hseen₃, hopened.seen_iff]
    simp only [HasRead, hvisited, and_assoc]
  · intro path hpath
    obtain ⟨stack, hread, hs⟩ := hopened.exists_read path hpath
    exact ⟨stack, reads_none_iff.mpr (Or.inl (Or.inl hread)), hs⟩
  · intro dir hdir hreached path hpath hunnamed
    exact hwalk.exists_brings ((hvisited dir).mpr ⟨hdir, hreached⟩) hpath hunnamed
  · intro dir hdir hreached manifest hmanifest
    exact hstack manifest ((hnearest manifest).mpr ⟨dir, hdir, hreached, hmanifest⟩)

/-- The sources of a project are those of the stacks that are read, and a module. -/
structure Consulted (r : Resolver) (disk : Disk) (explicit : Option String) (root : Place)
    (loaded : Loaded) : Prop where
  mem_iff : ∀ s, s ∈ loaded.sources ↔ IsModuleSource loaded.moduleFile s ∨
    ∃ limit stack, r.Reads disk explicit root limit stack ∧
      s ∈ (stack.map Prod.fst).map (limitedBy limit)
  isModule : ∀ path, loaded.moduleFile = some path → isModulePath path = true
  readable : r.Readable disk explicit root

theorem reads_some_iff {root names : Place} {stack : Stack} :
    r.Reads disk explicit root (some names) stack ↔ r.scan = true ∧
      names ∈ scannedDirectories disk root ∧
        r.BringsBelow disk root (r.HasRead disk explicit root) names stack := by
  constructor
  · rintro ⟨⟩
    exact ⟨‹_›, ‹_›, ‹_›⟩
  · rintro ⟨hscan, hnames, hbrings⟩
    exact .below hscan hnames hbrings

theorem map_limitedBy_none (sources : List ConfigSource) :
    sources.map (limitedBy none) = sources := List.map_id sources

theorem consulted_of_resolve (hlinks : disk.NoLinks) (hcwd : disk.cwd.Proper) {project : String}
    {root : Place} (hroot : projectPlace disk project = .ok root) {loaded : Loaded}
    (h : r.resolve disk project explicit = .ok loaded) :
    r.Consulted disk explicit root loaded := by
  obtain ⟨root', hroot', h⟩ := bind_eq_ok_iff.mp h
  rw [hroot] at hroot'
  cases hroot'
  obtain ⟨g, hg, h⟩ := bind_eq_ok_iff.mp h
  obtain ⟨hmade, hseen, hreadable⟩ := gather_consulted (proper_of_projectPlace hlinks hcwd hroot) hg
  have hread : (· ∈ g.seen) = r.HasRead disk explicit root :=
    funext fun path => propext (hseen path)
  -- The sources of the project itself come first, then those of the directories below.
  have hparts : ∀ below : List ConfigSource,
      (∀ s, s ∈ below ↔ ∃ names stack, r.Reads disk explicit root (some names) stack ∧
        s ∈ (stack.map Prod.fst).map (limitedBy (some names))) →
      ∀ s, s ∈ g.sources.reverse ++ below ↔ IsModuleSource g.moduleFile s ∨
        ∃ limit stack, r.Reads disk explicit root limit stack ∧
          s ∈ (stack.map Prod.fst).map (limitedBy limit) := by
    intro below hbelow s
    rw [List.mem_append, List.mem_reverse, hmade.mem_iff, hbelow, or_assoc, Option.exists]
    simp only [map_limitedBy_none]
  dsimp only at h
  split at h
  · rename_i hscan
    obtain ⟨below, hbelow, h⟩ := bind_eq_ok_iff.mp h
    cases h
    refine ⟨hparts _ fun s => ?_, hmade.isModule, hreadable⟩
    rw [mem_scanBelow_iff hbelow, hread]
    simp only [reads_some_iff, hscan, true_and, and_assoc, exists_and_left, List.not_mem_nil,
      false_or]
  · rename_i hscan
    cases h
    refine ⟨hparts _ fun s => ?_, hmade.isModule, hreadable⟩
    simp [reads_some_iff, hscan]

namespace Consulted

variable {root : Place} {loaded : Loaded}

theorem mem_of_reads (h : r.Consulted disk explicit root loaded) {stack : Stack}
    (hread : r.Reads disk explicit root none stack) {s : ConfigSource}
    (hs : s ∈ stack.map Prod.fst) : s ∈ loaded.sources := by
  refine (h.mem_iff s).mpr (Or.inr ⟨none, stack, hread, ?_⟩)
  rwa [map_limitedBy_none]

/-- A source that counts for the whole project and is no module comes from a stack read for it. -/
theorem exists_reads (h : r.Consulted disk explicit root loaded) {s : ConfigSource}
    (hs : s ∈ loaded.sources) (hscope : s.scope = none) (hkind : s.kind ≠ .programmaticModule) :
    ∃ stack, r.Reads disk explicit root none stack ∧ s ∈ stack.map Prod.fst := by
  rcases (h.mem_iff s).mp hs with ⟨path, -, rfl⟩ | ⟨limit, stack, hread, hmem⟩
  · exact absurd rfl hkind
  · cases limit with
    | none => exact ⟨stack, hread, by rwa [map_limitedBy_none] at hmem⟩
    | some names =>
      obtain ⟨source, -, rfl⟩ := List.mem_map.mp hmem
      cases hscope

theorem exists_found (h : r.Consulted disk explicit root loaded) {s : ConfigSource}
    (hs : s ∈ loaded.sources) (hscope : s.scope = none) (hkind : s.kind = .declarativeFile) :
    ∃ dir path place stack, dir <+: root ∧ r.Reached disk explicit root dir ∧
      r.Brings disk explicit dir path stack ∧ disk.locate path = .ok place ∧
      s.path = place.toPath := by
  obtain ⟨stack, hread, hmem⟩ := h.exists_reads hs hscope (by simp [hkind])
  rcases hread.mem_cases hmem with hpreset | ⟨hnamed, -⟩ |
    ⟨dir, path, place, hdir, hreached, hbrings, hplace, rfl⟩ | ⟨_, _, -, -, -, rfl⟩
  · rw [hpreset] at hkind
    cases hkind
  · rw [hkind] at hnamed
    simp at hnamed
  · exact ⟨dir, path, place, stack, hdir, hreached, hbrings, hplace, rfl⟩
  · cases hkind

theorem exists_manifest (h : r.Consulted disk explicit root loaded) {s : ConfigSource}
    (hs : s ∈ loaded.sources) (hscope : s.scope = none) (hkind : s.kind = .manifestField) :
    ∃ dir manifest, dir <+: root ∧ r.Reached disk explicit root dir ∧
      IsNearest disk root dir manifest ∧ s.path = manifest.path := by
  obtain ⟨stack, hread, hmem⟩ := h.exists_reads hs hscope (by simp [hkind])
  rcases hread.mem_cases hmem with hpreset | ⟨hnamed, -⟩ | ⟨_, _, _, -, -, -, -, rfl⟩ |
    ⟨dir, manifest, hdir, hreached, hnearest, rfl⟩
  · rw [hpreset] at hkind
    cases hkind
  · rw [hkind] at hnamed
    simp at hnamed
  · cases hkind
  · exact ⟨dir, manifest, hdir, hreached, hnearest, rfl⟩

end Consulted

end Resolver

end LintFront
