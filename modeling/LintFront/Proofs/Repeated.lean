import LintFront.Proofs.Loaded
import LintFront.Proofs.Subtree
import Mathlib.Data.List.Nodup
import Mathlib.Data.List.Pairwise

/-!
# Files that are read twice

A file that is named outright is remembered by its place, and one that the search finds by the path
under which its directory has it. The two differ where the directory has a link. So a file comes
twice just if the search meets a link to it and the file is read by another way as well.

* `Disk.proper_of_names`: what paths lead to, links or not.
* `projectFiles`: the files that count for the whole project, presets and manifests aside.
* `Resolver.FindsAt`: what the search finds in a directory, and where that is.
* `Walk.nodup_projectFiles_iff`: when a walk brings no file in twice.
* `Resolver.ReadsOnce`: each file that directories lead to is read because of one of them only.
* `Resolver.Repeats`: a directory leads to a file that is read anyway.
* `Resolver.projectFiles_nodup_iff`: no file is read twice unless a directory does that.
-/

namespace LintFront

/-! ## Paths with links -/

namespace FileTree

variable {tree : FileTree}

theorem isSome_at?_mono {a b : Place} (h : a <+: b) (hb : (tree.at? b).isSome) :
    (tree.at? a).isSome := by
  obtain ⟨rest, rfl⟩ := h
  rw [at?_append] at hb
  cases hinner : tree.at? a with
  | none =>
    rw [hinner] at hb
    cases hb
  | some inner => rfl

/-- What parts are followed to is there, unless there are none. -/
theorem isSome_of_advance {parts : List String} {here place : Place}
    (hparts : parts ≠ [] ∨ (tree.at? here).isSome)
    (h : tree.advance here parts = .ok (.arrived place)) : (tree.at? place).isSome := by
  induction parts generalizing here with
  | nil =>
    cases h
    exact hparts.resolve_left fun hne => hne rfl
  | cons part rest ih =>
    rw [advance] at h
    split at h
    · rename_i entries hdir
      have hhere : (tree.at? here).isSome := by rw [hdir, Option.isSome_some]
      split at h
      · exact ih (Or.inr hhere) h
      · split at h
        · exact ih (Or.inr (isSome_at?_mono (List.dropLast_prefix here) hhere)) h
        · split at h
          · cases h
          · split at h
            · cases h
            · cases h
            · rename_i inner _ hinner
              exact ih (Or.inr (by rw [at?_concat hdir hinner, Option.isSome_some])) h
    · cases h
    · cases h

/-- Behind a link there is a part to follow, if only an empty one. -/
theorem ne_nil_of_linked {parts rest : List String} {here start : Place}
    (h : tree.advance here parts = .ok (.linked start rest)) : rest ≠ [] := by
  induction parts generalizing here with
  | nil => cases h
  | cons part parts ih =>
    rw [advance] at h
    split at h
    · split at h
      · exact ih h
      · split at h
        · exact ih h
        · split at h
          · cases h
          · split at h
            · cases h
            · rename_i target _
              cases h
              exact fun hnil => segmentsOf_ne_nil target (List.append_eq_nil_iff.mp hnil).1
            · exact ih h
    · cases h
    · cases h

theorem isSome_of_follow {parts : List String} {here place : Place} {links : ℕ}
    (hparts : parts ≠ []) (h : tree.follow here parts links = .ok place) :
    (tree.at? place).isSome := by
  induction links generalizing here parts with
  | zero =>
    rw [follow] at h
    split at h <;> rename_i hadvance
    · cases h
      exact isSome_of_advance (Or.inl hparts) hadvance
    · cases h
    · cases h
  | succ links ih =>
    rw [follow] at h
    split at h <;> rename_i hadvance
    · cases h
      exact isSome_of_advance (Or.inl hparts) hadvance
    · exact ih (ne_nil_of_linked hadvance) h
    · cases h

theorem EveryName.of_isSome_at? {p : String → Prop} (h : tree.EveryName p) {place : Place}
    (hplace : (tree.at? place).isSome) : ∀ name ∈ place, p name := by
  induction place generalizing tree with
  | nil => exact fun name hname => absurd hname List.not_mem_nil
  | cons name rest ih =>
    cases h with
    | file text => cases hplace
    | link target => cases hplace
    | directory hnames htrees =>
      rw [FileTree.at?] at hplace
      split at hplace
      · rename_i inner hinner
        have hentry := Table.mem_of_find? hinner
        exact List.forall_mem_cons.mpr ⟨hnames _ hentry, ih (htrees _ hentry) hplace⟩
      · cases hplace

end FileTree

variable {disk : Disk} {r : Resolver} {explicit : Option String}

/-- In a tree of proper names every path leads to a proper place. -/
theorem Disk.proper_of_names (hnames : disk.tree.EveryName ProperName) {path : String}
    {place : Place} (h : disk.locate path = .ok place) : place.Proper := by
  refine hnames.of_isSome_at? ?_
  unfold Disk.locate at h
  split at h
  · cases h
  · split at h
    · cases h
    · exact FileTree.isSome_of_follow (segmentsOf_ne_nil path) h

/-! ## The files of a project -/

/-- A file that counts for the whole project and was named outright or found by the search. -/
def ConfigSource.isProjectFile (s : ConfigSource) : Bool :=
  s.scope.isNone &&
    [SourceKind.explicitFlag, .environmentVariable, .declarativeFile].contains s.kind

/-- The paths of such files, in the order of the sources. -/
def projectFiles (sources : List ConfigSource) : List String :=
  (sources.filter ConfigSource.isProjectFile).map ConfigSource.path

theorem projectFiles_append (s t : List ConfigSource) :
    projectFiles (s ++ t) = projectFiles s ++ projectFiles t := by
  rw [projectFiles, List.filter_append, List.map_append, projectFiles, projectFiles]

theorem projectFiles_eq_nil {sources : List ConfigSource}
    (h : ∀ s ∈ sources, s.isProjectFile = false) : projectFiles sources = [] := by
  rw [projectFiles, List.filter_eq_nil_iff.mpr fun s hs => by simp [h s hs], List.map_nil]

theorem IsBlock.projectFiles_eq {lookup : PresetLookup} {source : ConfigSource}
    {config : Configuration} {base : Place} {stack : Stack}
    (h : IsBlock disk lookup source config base stack) :
    projectFiles (stack.map Prod.fst) = projectFiles [source] := by
  obtain ⟨below, hbelow, rfl⟩ := h
  have hnone : projectFiles (below.map Prod.fst) = [] := by
    refine projectFiles_eq_nil fun s hs => ?_
    obtain ⟨entry, hentry, rfl⟩ := List.mem_map.mp hs
    rw [ConfigSource.isProjectFile, (hbelow.kind_eq entry hentry).1, Bool.and_eq_false_iff]
    exact Or.inr rfl
  rw [List.map_cons, ← List.singleton_append, projectFiles_append, hnone, List.append_nil]

/-- The file alone counts, not the presets that it names. -/
theorem IsFileBlock.projectFiles_eq {lookup : PresetLookup} {kind : SourceKind} {place : Place}
    {stack : Stack} (h : IsFileBlock disk lookup kind place stack)
    (hkind : kind ∈ [SourceKind.explicitFlag, .environmentVariable, .declarativeFile]) :
    projectFiles (stack.map Prod.fst) = [place.toPath] := by
  obtain ⟨config, -, hblock⟩ := h
  have hsource : (⟨place.toPath, kind, none⟩ : ConfigSource).isProjectFile = true :=
    List.contains_iff_mem.mpr hkind
  rw [hblock.projectFiles_eq, projectFiles, List.filter_cons_of_pos hsource]
  rfl

namespace Resolver

/-! ## Files named outright -/

variable {g g' : Gathered}

theorem projectFiles_addNamed {kind : SourceKind}
    (hkind : kind ∈ [SourceKind.explicitFlag, .environmentVariable, .declarativeFile])
    {given : String} (h : r.addNamed disk kind given g = .ok g') :
    ∃ new, g'.seen = g.seen ++ new ∧
      projectFiles g'.sources = projectFiles g.sources ++ new ∧
      (new = [] ∨ ∃ place, disk.locate given = .ok place ∧ new = [place.toPath]) := by
  unfold addNamed at h
  split at h
  · refine ⟨[], ?_⟩
    split at h
    · cases h
      exact ⟨(List.append_nil _).symm, (List.append_nil _).symm, Or.inl rfl⟩
    · cases h
      exact ⟨(List.append_nil _).symm, projectFiles_append _ _, Or.inl rfl⟩
  · obtain ⟨layer, hlayer, h⟩ := bind_eq_ok_iff.mp h
    cases h
    obtain ⟨place, stack, hplace, hblock, hexplains⟩ := load_explained hlayer
    have hsources : layer.sources = stack.map Prod.fst := hexplains.sources
    have hread : (layer.sources.take 1).map ConfigSource.path = [place.toPath] := by
      obtain ⟨config, -, below, -, rfl⟩ := id hblock
      rw [hsources]
      rfl
    refine ⟨[place.toPath], ?_, ?_, Or.inr ⟨place, hplace, rfl⟩⟩
    · rw [← hread]
    · rw [← hblock.projectFiles_eq hkind, ← hsources]
      exact projectFiles_append _ _

theorem projectFiles_addExplicit (h : r.addExplicit disk explicit {} = .ok g) :
    projectFiles g.sources = g.seen ∧ g.seen.Nodup := by
  unfold addExplicit at h
  split at h
  · cases h
    exact ⟨rfl, List.nodup_nil⟩
  · dsimp only at h
    split at h
    · obtain ⟨new, hseen, hfiles, hnew⟩ := projectFiles_addNamed (by simp) h
      refine ⟨hfiles.trans hseen.symm, ?_⟩
      rw [hseen]
      rcases hnew with rfl | ⟨place, -, rfl⟩
      · exact List.nodup_nil
      · exact List.nodup_singleton _
    · cases h

/-- What is named in the environment is compared by its place. -/
theorem projectFiles_addEnvironment (hg : projectFiles g.sources = g.seen ∧ g.seen.Nodup)
    (h : r.addEnvironment disk g = .ok g') :
    projectFiles g'.sources = g'.seen ∧ g'.seen.Nodup := by
  obtain ⟨hfiles, hnodup⟩ := hg
  unfold addEnvironment at h
  split at h
  · cases h
    exact ⟨hfiles, hnodup⟩
  · rename_i given _
    split at h
    · cases h
      exact ⟨hfiles, hnodup⟩
    · rename_i hunread
      split at h
      · obtain ⟨new, hseen, hadded, hnew⟩ := projectFiles_addNamed (by simp) h
        rw [hadded, hseen, hfiles]
        refine ⟨rfl, ?_⟩
        rcases hnew with rfl | ⟨place, hplace, rfl⟩
        · rwa [List.append_nil]
        · have hfresh : place.toPath ∉ g.seen := by
            rw [alreadyRead, hplace] at hunread
            simpa using hunread
          rw [List.nodup_append]
          refine ⟨hnodup, List.nodup_singleton _, fun path hpath other hother => ?_⟩
          rintro rfl
          exact hfresh (List.mem_singleton.mp hother ▸ hpath)
      · cases h
        exact ⟨hfiles, hnodup⟩

/-! ## Files found -/

/-- The search finds a file in a directory under a path, not named outright, and that leads to a
place. -/
structure FindsAt (r : Resolver) (disk : Disk) (explicit : Option String) (dir : Place)
    (path : String) (place : Place) : Prop where
  found : disk.findDeclarative dir = some path
  unnamed : ¬ r.Named disk explicit path
  leads : disk.locate path = .ok place

/-- The file that the search finds in a directory has a path. -/
def LeadsTo (r : Resolver) (disk : Disk) (explicit : Option String) (dir : Place) (path : String) :
    Prop :=
  ∃ under place, r.FindsAt disk explicit dir under place ∧ place.toPath = path

/-- Two directories do not lead to the same file. -/
def Apart (r : Resolver) (disk : Disk) (explicit : Option String) (dir dir' : Place) : Prop :=
  ∀ path, r.LeadsTo disk explicit dir path → ¬ r.LeadsTo disk explicit dir' path

instance : Std.Symm (r.Apart disk explicit) where
  symm _ _ h path hpath hpath' := h path hpath' hpath

theorem Brings.leadsTo_iff {dir : Place} {under : String} {stack : Stack}
    (h : r.Brings disk explicit dir under stack) {path : String} :
    r.LeadsTo disk explicit dir path ↔ path ∈ projectFiles (stack.map Prod.fst) := by
  obtain ⟨hfound, hunnamed, place, hplace, hblock⟩ := h
  rw [hblock.projectFiles_eq (by simp), List.mem_singleton]
  constructor
  · rintro ⟨under', place', ⟨hfound', -, hplace'⟩, rfl⟩
    obtain rfl := Option.some.inj (hfound.symm.trans hfound')
    obtain rfl := Except.ok.inj (hplace.symm.trans hplace')
    rfl
  · rintro rfl
    exact ⟨under, place, ⟨hfound, hunnamed, hplace⟩, rfl⟩

theorem not_leadsTo_of_named {dir : Place}
    (h : ∀ under, disk.findDeclarative dir = some under → r.Named disk explicit under)
    (path : String) : ¬ r.LeadsTo disk explicit dir path := by
  rintro ⟨under, place, hfinds, -⟩
  exact hfinds.unnamed (h under hfinds.found)

end Resolver

namespace Walk

variable {dirs visited : List Place} {boundary : Option Place} {sources : List ConfigSource}

theorem mem_projectFiles_iff (h : Walk r disk explicit dirs visited boundary sources)
    {path : String} :
    path ∈ projectFiles sources ↔ ∃ dir ∈ visited, r.LeadsTo disk explicit dir path := by
  induction h with
  | done => simp [projectFiles]
  | pass hnamed _ ih =>
    rw [ih, List.exists_mem_cons_iff, or_iff_right (Resolver.not_leadsTo_of_named hnamed path)]
  | stop hbrings => simp [hbrings.leadsTo_iff]
  | next hbrings _ _ ih =>
    rw [projectFiles_append, List.mem_append, ih, List.exists_mem_cons_iff, hbrings.leadsTo_iff]

/-- A walk brings no file in twice if no two of the directories lead to the same. -/
theorem nodup_projectFiles_iff (h : Walk r disk explicit dirs visited boundary sources) :
    (projectFiles sources).Nodup ↔ visited.Pairwise (r.Apart disk explicit) := by
  have hown : ∀ {dir : Place} {under : String} {stack : Stack},
      r.Brings disk explicit dir under stack → (projectFiles (stack.map Prod.fst)).Nodup := by
    rintro dir under stack ⟨-, -, place, -, hblock⟩
    rw [hblock.projectFiles_eq (by simp)]
    exact List.nodup_singleton _
  induction h with
  | done => exact iff_of_true List.nodup_nil .nil
  | pass hnamed _ ih =>
    refine ih.trans ?_
    rw [List.pairwise_cons]
    refine (and_iff_right fun dir' _ path hpath => ?_).symm
    exact absurd hpath (Resolver.not_leadsTo_of_named hnamed path)
  | stop hbrings => exact iff_of_true (hown hbrings) (List.pairwise_singleton _ _)
  | next hbrings _ hrest ih =>
    rw [projectFiles_append, List.nodup_append', List.pairwise_cons, and_iff_right (hown hbrings),
      and_comm]
    refine and_congr ?_ ih
    simp only [List.Disjoint, ← hbrings.leadsTo_iff, hrest.mem_projectFiles_iff]
    constructor
    · intro hdisjoint dir' hdir' path hpath hpath'
      exact hdisjoint hpath ⟨dir', hdir', hpath'⟩
    · rintro hall path hpath ⟨dir', hdir', hpath'⟩
      exact hall dir' hdir' path hpath hpath'

end Walk

namespace Resolver

/-! ## What else is gathered -/

variable {g g' : Gathered}

theorem projectFiles_addManifest {boundary : Option Place} {dirs : List Place}
    (h : r.addManifest disk boundary dirs g = .ok g') :
    projectFiles g'.sources = projectFiles g.sources := by
  obtain ⟨found, hfound, h⟩ := bind_eq_ok_iff.mp h
  cases found with
  | none =>
    cases h
    rfl
  | some manifest =>
    obtain ⟨layer, hlayer, h⟩ := bind_eq_ok_iff.mp h
    cases h
    obtain ⟨dir, -, name, config, rfl, hmanifest⟩ := findManifest_eq_some hfound
    obtain ⟨stack, hblock, hexplains⟩ :=
      expandWith_explained (loadWithin_explained _ .preset) hmanifest.wellFormed
        hlayer ⟨joinPath dir.toPath name, .manifestField, none⟩
    have hnone : projectFiles (⟨joinPath dir.toPath name, .manifestField, none⟩ :: layer.sources) =
        [] := by
      have hsources := hexplains.sources
      dsimp only at hsources
      rw [hsources, hblock.projectFiles_eq]
      rfl
    refine (projectFiles_append _ _).trans ?_
    rw [hnone, List.append_nil]

theorem projectFiles_addModule (root : Place) :
    projectFiles (addModule disk root g).sources = projectFiles g.sources := by
  unfold addModule
  split
  · rfl
  · split
    · rfl
    · rw [← List.singleton_append, projectFiles_append]
      rfl

/-- What the directories below bring in is limited to them. -/
theorem projectFiles_below {root : Place} {b : Below} (h : r.below disk root g = .ok b) :
    projectFiles b.sources = [] := by
  unfold below at h
  split at h
  · refine projectFiles_eq_nil fun s hs => ?_
    rcases (mem_scanBelow_iff h).mp hs with hs | ⟨names, -, stack, -, hs⟩
    · cases hs
    · obtain ⟨source, -, rfl⟩ := List.mem_map.mp hs
      rfl
  · cases h
    rfl

/-! ## The whole -/

theorem proper_of_projectPlace_of_names (hnames : disk.tree.EveryName ProperName)
    {project : String} {root : Place} (h : projectPlace disk project = .ok root) :
    root.Proper := by
  unfold projectPlace at h
  split at h
  · rename_i place hplace
    cases h
    exact Disk.proper_of_names hnames hplace
  · cases h

/-- The directory has, not named outright, a link to a file that is read by another way: it is named
outright, or the search finds it in another directory. -/
def Repeats (r : Resolver) (disk : Disk) (explicit : Option String) (root dir : Place) : Prop :=
  ∃ path place, r.FindsAt disk explicit dir path place ∧ place.toPath ≠ path ∧
    (r.Named disk explicit place.toPath ∨
      ∃ dir' path', dir' <+: root ∧ r.Reached disk explicit root dir' ∧ dir' ≠ dir ∧
        r.FindsAt disk explicit dir' path' place)

/-- A file that a directory leads to is not named outright, and no other directory leads to it. -/
def ReadsOnce (r : Resolver) (disk : Disk) (explicit : Option String) (root : Place) : Prop :=
  ∀ dir, dir <+: root → r.Reached disk explicit root dir →
    ∀ path, r.LeadsTo disk explicit dir path → ¬ r.Named disk explicit path ∧
      ∀ dir', dir' <+: root → r.Reached disk explicit root dir' →
        r.LeadsTo disk explicit dir' path → dir = dir'

/-- The files of a project are those named outright and those of the directories that the search
visits. -/
theorem nodup_gather_iff {root : Place} (hroot : root.Proper)
    (h : r.gather disk root explicit = .ok g) :
    (projectFiles g.sources).Nodup ↔ r.ReadsOnce disk explicit root := by
  obtain ⟨g₁, h₁, h⟩ := bind_eq_ok_iff.mp h
  obtain ⟨g₂, h₂, h⟩ := bind_eq_ok_iff.mp h
  obtain ⟨⟨g₃, boundary⟩, h₃, h⟩ := bind_eq_ok_iff.mp h
  obtain ⟨g₄, h₄, h⟩ := bind_eq_ok_iff.mp h
  cases h
  obtain ⟨hfiles, hnamed⟩ := projectFiles_addEnvironment (projectFiles_addExplicit h₁) h₂
  have hopened := addEnvironment_opened (addExplicit_opened h₁) h₂
  have hancestors : root.ancestors.Nodup :=
    (Place.pairwise_ancestors root).imp fun hab => hab.2.symm
  obtain ⟨visited, walked, hwalked, -, -, hwalk⟩ := walk_of_walkUp hancestors
    (fun dir hdir => hroot.mono (Place.mem_ancestors.mp hdir))
    (fun dir _ path _ => hopened.seen_iff path) h₃
  have hvisited : visited.Nodup := hancestors.sublist hwalk.isPrefix_visited.sublist
  rw [projectFiles_addModule, projectFiles_addManifest h₄, hwalked, projectFiles_append, hfiles,
    List.nodup_append', and_iff_right hnamed, hwalk.nodup_projectFiles_iff]
  simp only [ReadsOnce, List.Disjoint, hopened.seen_iff, hwalk.mem_projectFiles_iff,
    hwalk.mem_visited_iff_reached]
  constructor
  · rintro ⟨hpairs, hdisjoint⟩ dir hdir hreached path hpath
    refine ⟨fun hmem => hdisjoint hmem ⟨dir, ⟨hdir, hreached⟩, hpath⟩, ?_⟩
    intro dir' hdir' hreached' hpath'
    by_contra hne
    exact hpairs.forall (hwalk.mem_visited_iff_reached.mpr ⟨hdir, hreached⟩)
      (hwalk.mem_visited_iff_reached.mpr ⟨hdir', hreached'⟩) hne path hpath hpath'
  · intro hall
    constructor
    · refine hvisited.pairwise_of_forall_ne fun dir hdir dir' hdir' hne path hpath hpath' => ?_
      obtain ⟨hupper, hreached⟩ := hwalk.mem_visited_iff_reached.mp hdir
      obtain ⟨hupper', hreached'⟩ := hwalk.mem_visited_iff_reached.mp hdir'
      exact hne ((hall dir hupper hreached path hpath).2 dir' hupper' hreached' hpath')
    · rintro path hmem ⟨dir, ⟨hdir, hreached⟩, hpath⟩
      exact (hall dir hdir hreached path hpath).1 hmem

theorem nodup_resolve_iff (hnames : disk.tree.EveryName ProperName) {project : String}
    {loaded : Loaded} (h : r.resolve disk project explicit = .ok loaded) :
    ∃ root, projectPlace disk project = .ok root ∧ root.Proper ∧
      ((projectFiles loaded.sources).Nodup ↔ r.ReadsOnce disk explicit root) := by
  obtain ⟨root, hroot, g, hg, b, hb, rfl⟩ := resolve_eq_ok_iff.mp h
  have hproper : root.Proper := proper_of_projectPlace_of_names hnames hroot
  have hfiles : (projectFiles (Loaded.joined g b).sources).Nodup ↔
      (projectFiles g.sources).Nodup := by
    rw [Loaded.joined, projectFiles_append, projectFiles_below hb, List.append_nil, projectFiles,
      List.filter_reverse, List.map_reverse, List.nodup_reverse, projectFiles]
  exact ⟨root, hroot, hproper, hfiles.trans (nodup_gather_iff hproper hg)⟩

/-- Where a file is named outright or another directory leads to it, too, some directory has a link
to it. -/
theorem readsOnce_iff (hnames : disk.tree.EveryName ProperName) {root : Place}
    (hroot : root.Proper) :
    r.ReadsOnce disk explicit root ↔ ∀ dir, dir <+: root → r.Reached disk explicit root dir →
      ¬ r.Repeats disk explicit root dir := by
  constructor
  · rintro hall dir hdir hreached ⟨path, place, hfinds, -, hrepeats⟩
    obtain ⟨hunnamed, honly⟩ := hall dir hdir hreached place.toPath ⟨path, place, hfinds, rfl⟩
    rcases hrepeats with hnamed | ⟨dir', path', hdir', hreached', hne, hfinds'⟩
    · exact hunnamed hnamed
    · exact hne (honly dir' hdir' hreached' ⟨path', place, hfinds', rfl⟩).symm
  · rintro hall dir hdir hreached _ ⟨path, place, hfinds, rfl⟩
    constructor
    · intro hnamed
      refine hall dir hdir hreached ⟨path, place, hfinds, ?_, Or.inl hnamed⟩
      intro hdirect
      exact hfinds.unnamed (hdirect ▸ hnamed)
    · rintro dir' hdir' hreached' ⟨path', place', hfinds', hplace⟩
      by_contra hne
      obtain rfl : place' = place := Place.toPath_inj (Disk.proper_of_names hnames hfinds'.leads)
        (Disk.proper_of_names hnames hfinds.leads) hplace
      by_cases hlink : place'.toPath = path
      · -- The other directory has the link.
        refine hall dir' hdir' hreached' ⟨path', place', hfinds', ?_,
          Or.inr ⟨dir, path, hdir, hreached, hne, hfinds⟩⟩
        intro hlink'
        obtain rfl := hlink.symm.trans hlink'
        exact hne (findDeclarative_inj (hroot.mono hdir) (hroot.mono hdir') hfinds.found
          hfinds'.found)
      · exact hall dir hdir hreached ⟨path, place', hfinds, hlink,
          Or.inr ⟨dir', path', hdir', hreached', fun heq => hne heq.symm, hfinds'⟩⟩

theorem projectFiles_nodup_of_noLinks (hlinks : disk.NoLinks) (hcwd : disk.cwd.Proper)
    (hnames : disk.tree.EveryName ProperName) {project : String} {loaded : Loaded}
    (h : r.resolve disk project explicit = .ok loaded) : (projectFiles loaded.sources).Nodup := by
  obtain ⟨root, -, hproper, hnodup⟩ := nodup_resolve_iff hnames h
  apply hnodup.mpr
  apply (readsOnce_iff hnames hproper).mpr
  rintro dir hdir - ⟨path, place, hfinds, hlink, -⟩
  exact hlink (toPath_of_findDeclarative hlinks hcwd (hproper.mono hdir) hfinds.found hfinds.leads)

/-- No file is read twice for a project, unless a directory that the search reaches has a link to a
file that is read anyway. -/
theorem projectFiles_nodup_iff (hnames : disk.tree.EveryName ProperName) {project : String}
    {loaded : Loaded} (h : r.resolve disk project explicit = .ok loaded) :
    ∃ root, projectPlace disk project = .ok root ∧
      ((projectFiles loaded.sources).Nodup ↔ ∀ dir, dir <+: root →
        r.Reached disk explicit root dir → ¬ r.Repeats disk explicit root dir) := by
  obtain ⟨root, hroot, hproper, hnodup⟩ := nodup_resolve_iff hnames h
  exact ⟨root, hroot, hnodup.trans (readsOnce_iff hnames hproper)⟩

/-! ## Cases -/

/-- A project with a link to the file of the directory above. -/
def linkedAbove : Disk where
  tree := .directory [
    ("a", .directory [("viola.json", .link "../viola.json")]),
    ("viola.json", .file (some "\x7b\x7d"))]
  cwd := []

/-- A project with a link to a file with another name. -/
def linkedAside : Disk where
  tree := .directory [("real.json", .file (some "\x7b\x7d")), ("viola.json", .link "real.json")]
  cwd := []

theorem everyName_linkedAbove : linkedAbove.tree.EveryName ProperName := by decide

theorem everyName_linkedAside : linkedAside.tree.EveryName ProperName := by decide

/-- A link to the file of a directory above has the file read twice, and so has a link to the file
that is named on the command line. -/
theorem links_repeat_files :
    (linkedAbove.tree.EveryName ProperName ∧ ∃ loaded,
      plainResolver.resolve linkedAbove "/a" none = .ok loaded ∧
        ¬ (projectFiles loaded.sources).Nodup) ∧
    linkedAside.tree.EveryName ProperName ∧ ∃ loaded,
      plainResolver.resolve linkedAside "/" (some "/real.json") = .ok loaded ∧
        ¬ (projectFiles loaded.sources).Nodup := by
  have habove : passes (fun loaded => !decide (projectFiles loaded.sources).Nodup)
      (plainResolver.resolve linkedAbove "/a" none) = true := by
    decide +kernel
  have haside : passes (fun loaded => !decide (projectFiles loaded.sources).Nodup)
      (plainResolver.resolve linkedAside "/" (some "/real.json")) = true := by
    decide +kernel
  obtain ⟨loaded, hloaded, hrepeat⟩ := exists_of_passes habove
  obtain ⟨loaded', hloaded', hrepeat'⟩ := exists_of_passes haside
  exact ⟨⟨everyName_linkedAbove, loaded, hloaded, by simpa using hrepeat⟩,
    everyName_linkedAside, loaded', hloaded', by simpa using hrepeat'⟩

/-- Alone, a link to a file is read like a file. -/
theorem projectFiles_nodup_linkedAside :
    ∃ loaded, linkedAside.tree.EveryName ProperName ∧
      plainResolver.resolve linkedAside "/" none = .ok loaded ∧
      plainResolver.FindsAt linkedAside none [] "/viola.json" ["real.json"] ∧
      (projectFiles loaded.sources).Nodup := by
  have hrun : passes (fun _ => true) (plainResolver.resolve linkedAside "/" none) = true := by
    decide +kernel
  have hproject : passes (· == []) (projectPlace linkedAside "/") = true := by decide +kernel
  have hlocate : passes (· == ["real.json"]) (linkedAside.locate "/viola.json") = true := by
    decide +kernel
  obtain ⟨loaded, hloaded, -⟩ := exists_of_passes hrun
  obtain ⟨root, hroot, hempty⟩ := exists_of_passes hproject
  obtain ⟨place, hplace, hreal⟩ := exists_of_passes hlocate
  obtain rfl : root = [] := eq_of_beq hempty
  obtain rfl : place = ["real.json"] := eq_of_beq hreal
  have hunnamed : ∀ path, ¬ plainResolver.Named linkedAside none path := by
    rintro path (⟨given, hgiven, -⟩ | ⟨given, hgiven, -⟩) <;> cases hgiven
  obtain ⟨root', hroot', hiff⟩ := projectFiles_nodup_iff everyName_linkedAside hloaded
  obtain rfl := Except.ok.inj (hroot.symm.trans hroot')
  refine ⟨loaded, everyName_linkedAside, hloaded, ⟨by decide +kernel, hunnamed _, hplace⟩,
    hiff.mpr ?_⟩
  rintro dir hdir - ⟨path, place, -, -, hnamed | ⟨dir', path', hdir', -, hne, -⟩⟩
  · exact hunnamed _ hnamed
  · exact hne ((List.prefix_nil.mp hdir').trans (List.prefix_nil.mp hdir).symm)

end Resolver

end LintFront
