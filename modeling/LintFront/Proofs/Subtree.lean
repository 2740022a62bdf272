import LintFront.Proofs.Consulted
import LintFront.Proofs.Patterns
import LintFront.Proofs.Ranking

/-!
# What the directories below a project count for

A configuration file in a directory below a project counts for the files in that directory, at any
depth, and for nothing else. Its patterns begin with the directory's own name, escaped, so that
they match nothing outside; and they may move the patterns of the project only to where these go
before others that match files of the directory.

* `IsBelow`: a path leads strictly below a directory.
* `Resolver.Scans`: a file that is found below a project.
* `ResolvedConfig.scopeFor_insertAllLater`: scopes that do not match a file do not count for it.
* `ScopeOverride.Covers`: an override sets all that another one sets.
* `Resolver.scan_confined`: the resolution with the directories below, compared with the one
  without them.
-/

namespace LintFront

/-! ## Names in a tree -/

/-- All names in a tree have a property. -/
inductive FileTree.EveryName (p : String → Prop) : FileTree → Prop
  | file (text : Option String) : EveryName p (.file text)
  | link (target : String) : EveryName p (.link target)
  | directory {entries : List (String × FileTree)} (hnames : ∀ entry ∈ entries, p entry.1)
      (htrees : ∀ entry ∈ entries, EveryName p entry.2) : EveryName p (.directory entries)

namespace FileTree

variable {p : String → Prop}

theorem everyName_directory_iff {entries : List (String × FileTree)} :
    (directory entries).EveryName p ↔
      (∀ entry ∈ entries, p entry.1) ∧ ∀ entry ∈ entries, entry.2.EveryName p := by
  constructor
  · intro h
    cases h with
    | directory hnames htrees => exact ⟨hnames, htrees⟩
  · rintro ⟨hnames, htrees⟩
    exact .directory hnames htrees

mutual

/-- The names in a tree are looked at one by one. -/
def decidableEveryName [DecidablePred p] : (tree : FileTree) → Decidable (tree.EveryName p)
  | .file text => isTrue (.file text)
  | .link target => isTrue (.link target)
  | .directory entries =>
    have := decidableEveryEntry entries
    decidable_of_iff _ everyName_directory_iff.symm

def decidableEveryEntry [DecidablePred p] : (entries : List (String × FileTree)) →
    Decidable (∀ entry ∈ entries, entry.2.EveryName p)
  | [] => isTrue (by simp)
  | (_, tree) :: rest =>
    have := decidableEveryName tree
    have := decidableEveryEntry rest
    decidable_of_iff _ List.forall_mem_cons.symm

end

instance [DecidablePred p] : DecidablePred (EveryName p) := decidableEveryName

theorem EveryName.at? {tree inner : FileTree} (h : tree.EveryName p) {place : Place}
    (hinner : tree.at? place = some inner) : inner.EveryName p := by
  induction place generalizing tree with
  | nil =>
    cases hinner
    exact h
  | cons name rest ih =>
    cases h with
    | file text => simp [FileTree.at?] at hinner
    | link target => simp [FileTree.at?] at hinner
    | directory _ htrees =>
      rw [FileTree.at?] at hinner
      split at hinner
      · rename_i found hfound
        exact ih (htrees _ (Table.mem_of_find? hfound)) hinner
      · cases hinner

theorem perm_insertEntry (entry : String × FileTree) (entries : List (String × FileTree)) :
    (insertEntry entry entries).Perm (entry :: entries) := by
  induction entries with
  | nil => exact .refl _
  | cons other rest ih =>
    rw [insertEntry]
    split
    · exact (ih.cons other).trans (.swap entry other rest)
    · exact .refl _

theorem mem_insertEntry {entry other : String × FileTree} {entries : List (String × FileTree)} :
    other ∈ insertEntry entry entries ↔ other = entry ∨ other ∈ entries :=
  (perm_insertEntry entry entries).mem_iff.trans List.mem_cons

mutual

theorem EveryName.sorted : ∀ {tree : FileTree}, tree.EveryName p → tree.sorted.EveryName p
  | .file text, _ => .file text
  | .link target, _ => .link target
  | .directory entries, h => by
    cases h with
    | directory hnames htrees =>
      have hentries := EveryName.sortedEntries hnames htrees
      exact .directory (fun entry h => (hentries entry h).1) fun entry h => (hentries entry h).2

theorem EveryName.sortedEntries : ∀ {entries : List (String × FileTree)},
    (∀ entry ∈ entries, p entry.1) → (∀ entry ∈ entries, entry.2.EveryName p) →
    ∀ entry ∈ sortedEntries entries, p entry.1 ∧ entry.2.EveryName p
  | [], _, _, _, h => by simp [FileTree.sortedEntries] at h
  | (name, tree) :: rest, hnames, htrees, entry, h => by
    rw [FileTree.sortedEntries, mem_insertEntry] at h
    obtain ⟨hname, hrestNames⟩ := List.forall_mem_cons.mp hnames
    obtain ⟨htree, hrestTrees⟩ := List.forall_mem_cons.mp htrees
    rcases h with rfl | h
    · exact ⟨hname, htree.sorted⟩
    · exact EveryName.sortedEntries hrestNames hrestTrees entry h

end

mutual

theorem EveryName.of_mem_subdirectories : ∀ {tree : FileTree} {here place : Place},
    tree.EveryName p → (∀ name ∈ here, p name) → place ∈ tree.subdirectories here →
    ∀ name ∈ place, p name
  | .file _, here, place, _, _, hplace => by simp [subdirectories] at hplace
  | .link _, here, place, _, _, hplace => by simp [subdirectories] at hplace
  | .directory entries, here, place, h, hhere, hplace => by
    cases h with
    | directory hnames htrees =>
      exact EveryName.of_mem_entryDirectories hnames htrees hhere hplace

theorem EveryName.of_mem_entryDirectories : ∀ {entries : List (String × FileTree)}
    {here place : Place}, (∀ entry ∈ entries, p entry.1) →
    (∀ entry ∈ entries, entry.2.EveryName p) → (∀ name ∈ here, p name) →
    place ∈ entryDirectories here entries → ∀ name ∈ place, p name
  | [], here, place, _, _, _, hplace => by simp [entryDirectories] at hplace
  | (name, tree) :: rest, here, place, hnames, htrees, hhere, hplace => by
    have hrest : place ∈ entryDirectories here rest → ∀ name ∈ place, p name :=
      EveryName.of_mem_entryDirectories
        (fun entry hentry => hnames entry (List.mem_cons_of_mem _ hentry))
        (fun entry hentry => htrees entry (List.mem_cons_of_mem _ hentry)) hhere
    have hinside : ∀ n ∈ here ++ [name], p n := by
      intro n hn
      rcases List.mem_append.mp hn with hn | hn
      · exact hhere n hn
      · rw [List.mem_singleton.mp hn]
        exact hnames (name, tree) List.mem_cons_self
    have htree : place ∈ tree.subdirectories (here ++ [name]) → ∀ name ∈ place, p name :=
      EveryName.of_mem_subdirectories (htrees (name, tree) List.mem_cons_self) hinside
    unfold entryDirectories at hplace
    split at hplace
    · split at hplace
      · exact hrest hplace
      · rcases List.mem_append.mp hplace with hplace | hplace
        · rcases List.mem_cons.mp hplace with rfl | hplace
          · exact hinside
          · exact htree hplace
        · exact hrest hplace
    · exact hrest hplace

end

end FileTree

/-! ## Paths in a directory -/

/-- A path, relative to a project, leads strictly below a directory of it: it begins with the names
of the directory and a slash. -/
def IsBelow (names : Place) (path : String) : Prop :=
  ∃ rest, ResolvedConfig.slashed path = "/".intercalate names ++ "/" ++ rest

theorem slashed_eq_self {path : String} (h : '\\' ∉ path.toList) :
    ResolvedConfig.slashed path = path := by
  rw [ResolvedConfig.slashed, ← String.toList_inj, String.toList_map]
  refine (List.map_congr_left fun c hc => if_neg ?_).trans (List.map_id _)
  rintro rfl
  exact h hc

theorem mem_intercalate {names : Place} {c : Char} (h : c ∈ ("/".intercalate names).toList) :
    c = '/' ∨ ∃ name ∈ names, c ∈ name.toList := by
  induction names with
  | nil => simp at h
  | cons name rest ih =>
    cases rest with
    | nil =>
      rw [String.intercalate_singleton] at h
      exact Or.inr ⟨name, by simp, h⟩
    | cons next rest =>
      rw [String.intercalate_cons_cons, String.toList_append, String.toList_append] at h
      simp only [List.mem_append] at h
      rcases h with (h | h) | h
      · exact Or.inr ⟨name, by simp, h⟩
      · exact Or.inl (List.mem_singleton.mp h)
      · exact (ih h).imp_right fun ⟨n, hn, hc⟩ => ⟨n, List.mem_cons_of_mem _ hn, hc⟩

namespace Resolver

/-- A pattern that is put behind a directory matches the paths below the directory whose rest it
matches. -/
theorem globMatches_escapedDirectory_iff {names : Place} (h : ∀ name ∈ names, '\\' ∉ name.toList)
    (pattern path : String) :
    globMatches (escapedDirectory names ++ "/" ++ pattern) path = true ↔
      ∃ rest, path = "/".intercalate names ++ "/" ++ rest ∧ globMatches pattern rest = true := by
  have hslashed : ResolvedConfig.slashed ("/".intercalate names) = "/".intercalate names := by
    refine slashed_eq_self fun hmem => ?_
    rcases mem_intercalate hmem with hc | ⟨name, hname, hc⟩
    · cases hc
    · exact h name hname hc
  rw [escapedDirectory, hslashed, globMatches_inside_iff]

theorem subtree_eq (names : Place) :
    escapedDirectory names ++ "/**" = escapedDirectory names ++ "/" ++ "**" := by
  rw [String.append_assoc]
  rfl

end Resolver

/-! ## Scopes that do not match -/

namespace ResolvedConfig

theorem filter_insertLater {f : String → Bool} {pattern : String} (h : f pattern = false)
    (scopes : Table ScopeOverride) (scope : ScopeOverride) :
    (insertLater scopes pattern scope).filter (fun entry => f entry.1) =
      scopes.filter fun entry => f entry.1 := by
  have hlast : ∀ o : ScopeOverride, [(pattern, o)].filter (fun entry => f entry.1) = [] := by
    intro o
    rw [List.filter_cons_of_neg (by simp [h]), List.filter_nil]
  rw [insertLater]
  split
  · rw [List.filter_append, hlast, List.append_nil, Table.erase, List.filter_filter]
    refine List.filter_congr fun entry _ => ?_
    by_cases hentry : entry.1 = pattern
    · simp [hentry, h]
    · simp [hentry]
  · rw [List.filter_append, hlast, List.append_nil]

theorem filter_insertAllLater {f : String → Bool} {later : Table ScopeOverride}
    (h : ∀ pattern ∈ Table.names later, f pattern = false) (scopes : Table ScopeOverride) :
    (insertAllLater scopes later).filter (fun entry => f entry.1) =
      scopes.filter fun entry => f entry.1 := by
  induction later generalizing scopes with
  | nil => rfl
  | cons entry rest ih =>
    obtain ⟨hpattern, hrest⟩ := List.forall_mem_cons.mp h
    have hstep : insertAllLater scopes (entry :: rest) =
        insertAllLater (insertLater scopes entry.1 entry.2) rest := rfl
    rw [hstep, ih hrest, filter_insertLater hpattern]

/-- Scopes of directories below that do not match a file do not count for it. -/
theorem scopeFor_ofMerged {path : String} {below : Table ScopeOverride}
    (h : ∀ pattern ∈ Table.names below, globMatches pattern (slashed path) = false)
    (merged : Configuration) :
    (ofMerged merged below).scopeFor path = (ofMerged merged []).scopeFor path := by
  have hfilter := filter_insertAllLater h
    (insertAllLater (globalScopes merged) (merged.scopes.getD []))
  simp only [scopeFor, matching, ofMerged, hfilter]
  rfl

end ResolvedConfig

/-! ## Scopes that set no less -/

/-- An override sets at least what another one sets. -/
structure ScopeOverride.Covers (s o : ScopeOverride) : Prop where
  skip : ∀ linter ∈ o.skip.getD [], linter ∈ s.skip.getD []
  severity : ∀ key ∈ Table.names (o.severity.getD []), key ∈ Table.names (s.severity.getD [])

namespace ScopeOverride

theorem Covers.refl (s : ScopeOverride) : s.Covers s := ⟨fun _ h => h, fun _ h => h⟩

theorem Covers.trans {s t u : ScopeOverride} (hst : s.Covers t) (htu : t.Covers u) : s.Covers u :=
  ⟨fun linter h => hst.skip linter (htu.skip linter h),
    fun key h => hst.severity key (htu.severity key h)⟩

theorem mem_skip_merge {s lower : ScopeOverride} {linter : String} :
    linter ∈ (s.merge lower).skip.getD [] ↔
      linter ∈ s.skip.getD [] ∨ linter ∈ lower.skip.getD [] := by
  cases h : lower.skip <;> simp [merge, unionOption, h]

theorem mem_severity_merge {s lower : ScopeOverride} {key : String} :
    key ∈ Table.names ((s.merge lower).severity.getD []) ↔
      key ∈ Table.names (s.severity.getD []) ∨ key ∈ Table.names (lower.severity.getD []) := by
  cases h : lower.severity with
  | none => simp [merge, mergeTables, h, Table.names]
  | some t => simp [merge, mergeTables, h, Table.names_mergeWith]

theorem covers_merge_left (s lower : ScopeOverride) : (s.merge lower).Covers s :=
  ⟨fun _ h => mem_skip_merge.mpr (Or.inl h), fun _ h => mem_severity_merge.mpr (Or.inl h)⟩

theorem covers_merge_right (s lower : ScopeOverride) : (s.merge lower).Covers lower :=
  ⟨fun _ h => mem_skip_merge.mpr (Or.inr h), fun _ h => mem_severity_merge.mpr (Or.inr h)⟩

theorem covers_foldl_merge (s : ScopeOverride) (lower : List ScopeOverride) :
    (lower.foldl merge s).Covers s ∧ ∀ o ∈ lower, (lower.foldl merge s).Covers o := by
  induction lower generalizing s with
  | nil => exact ⟨.refl s, by simp⟩
  | cons head rest ih =>
    obtain ⟨hstart, hrest⟩ := ih (s.merge head)
    refine ⟨hstart.trans (covers_merge_left s head), fun o ho => ?_⟩
    rcases List.mem_cons.mp ho with rfl | ho
    · exact hstart.trans (covers_merge_right s o)
    · exact hrest o ho

end ScopeOverride

/-- The scope of a pattern sets at least what an override sets. -/
def SetsAt (scopes : Table ScopeOverride) (pattern : String) (o : ScopeOverride) : Prop :=
  ∃ scope, Table.find? scopes pattern = some scope ∧ scope.Covers o

theorem SetsAt.insertLater {scopes : Table ScopeOverride} {pattern : String} {o : ScopeOverride}
    (h : SetsAt scopes pattern o) (name : String) (scope : ScopeOverride) :
    SetsAt (ResolvedConfig.insertLater scopes name scope) pattern o := by
  obtain ⟨present, hpresent, hcovers⟩ := h
  unfold SetsAt
  rw [ResolvedConfig.find?_insertLater]
  by_cases hname : pattern = name
  · subst hname
    rw [if_pos rfl, hpresent]
    exact ⟨_, rfl, (ScopeOverride.covers_merge_right _ _).trans hcovers⟩
  · rw [if_neg hname]
    exact ⟨present, hpresent, hcovers⟩

theorem SetsAt.insertAllLater {scopes : Table ScopeOverride} {pattern : String}
    {o : ScopeOverride} (h : SetsAt scopes pattern o) (later : Table ScopeOverride) :
    SetsAt (ResolvedConfig.insertAllLater scopes later) pattern o := by
  induction later generalizing scopes with
  | nil => exact h
  | cons entry rest ih => exact ih (h.insertLater entry.1 entry.2)

namespace ResolvedConfig

theorem setsAt_insertLater (scopes : Table ScopeOverride) (pattern : String)
    (scope : ScopeOverride) : SetsAt (insertLater scopes pattern scope) pattern scope := by
  unfold SetsAt
  rw [find?_insertLater, if_pos rfl]
  cases Table.find? scopes pattern with
  | none => exact ⟨scope, rfl, .refl scope⟩
  | some present => exact ⟨_, rfl, ScopeOverride.covers_merge_left _ _⟩

/-- Scopes that come in later set all that they say. -/
theorem setsAt_insertAllLater (scopes : Table ScopeOverride) {later : Table ScopeOverride}
    {entry : String × ScopeOverride} (h : entry ∈ later) :
    SetsAt (insertAllLater scopes later) entry.1 entry.2 := by
  induction later generalizing scopes with
  | nil => cases h
  | cons head rest ih =>
    rcases List.mem_cons.mp h with rfl | h
    · exact (setsAt_insertLater scopes entry.1 entry.2).insertAllLater rest
    · exact ih _ h

/-- The settings of a file set all that its scopes set. -/
theorem covers_scopeFor {c : ResolvedConfig} {path pattern : String} {o : ScopeOverride}
    (h : SetsAt c.scopes pattern o) (hmatch : globMatches pattern (slashed path) = true) :
    (c.scopeFor path).Covers o := by
  obtain ⟨scope, hscope, hcovers⟩ := h
  have hmem : (pattern, scope) ∈ c.matching path :=
    mem_matching.mpr ⟨Table.mem_of_find? hscope, hmatch⟩
  refine ((ScopeOverride.covers_foldl_merge {} _).2 scope ?_).trans hcovers
  exact List.mem_map.mpr ⟨_, hmem, rfl⟩

end ResolvedConfig

/-! ## The scan -/

theorem SetsAt.insertAbove {scopes : Table ScopeOverride} {pattern : String} {o : ScopeOverride}
    (h : SetsAt scopes pattern o) (name : String) (scope : ScopeOverride) :
    SetsAt (Resolver.insertAbove scopes name scope) pattern o := by
  obtain ⟨present, hpresent, hcovers⟩ := h
  unfold SetsAt Resolver.insertAbove
  rw [Table.find?_upsert]
  by_cases hname : pattern = name
  · subst hname
    rw [if_pos (beq_self_eq_true pattern), hpresent]
    exact ⟨_, rfl, (ScopeOverride.covers_merge_right _ _).trans hcovers⟩
  · rw [if_neg (by simpa using hname)]
    exact ⟨present, hpresent, hcovers⟩

namespace Resolver

theorem setsAt_insertAbove (scopes : Table ScopeOverride) (pattern : String)
    (scope : ScopeOverride) : SetsAt (insertAbove scopes pattern scope) pattern scope := by
  unfold SetsAt insertAbove
  rw [Table.find?_upsert, if_pos (beq_self_eq_true pattern)]
  cases Table.find? scopes pattern with
  | none => exact ⟨scope, rfl, .refl scope⟩
  | some present => exact ⟨_, rfl, ScopeOverride.covers_merge_left _ _⟩

variable {disk : Disk} {r : Resolver} {explicit : Option String}

/-- The file of a directory below a project is found in the scan, with its presets merged below. -/
def Finds (r : Resolver) (disk : Disk) (root : Place) (seen : List String) (names : Place)
    (layer : Layer) : Prop :=
  ∃ path, disk.findDeclarative (root ++ names) = some path ∧ path ∉ seen ∧
    r.load disk .declarativeFile path = .ok layer

/-- A pattern belongs to a directory. -/
def PatternOf (names : Place) (pattern : String) : Prop :=
  ∃ rest, pattern = escapedDirectory names ++ "/" ++ rest

theorem setsAt_addScopes {scopes : Table ScopeOverride} {pattern : String} {o : ScopeOverride}
    (h : SetsAt scopes pattern o) (dir : String) (nested : Table ScopeOverride) :
    SetsAt (nested.foldl (fun scopes (entry : String × ScopeOverride) =>
      insertAbove scopes (dir ++ "/" ++ entry.1) entry.2) scopes) pattern o := by
  induction nested generalizing scopes with
  | nil => exact h
  | cons entry rest ih => exact ih (h.insertAbove _ entry.2)

theorem mem_names_insertAbove {scopes : Table ScopeOverride} {name pattern : String}
    {scope : ScopeOverride} (h : pattern ∈ Table.names (insertAbove scopes name scope)) :
    pattern ∈ Table.names scopes ∨ pattern = name := by
  rw [insertAbove, Table.names_upsert] at h
  split at h
  · exact Or.inl h
  · simpa using h

/-- A directory brings in patterns of its own. -/
theorem mem_names_addDirectory {names : Place} {layer : Layer} {b : Below} {pattern : String}
    (h : pattern ∈ Table.names (addDirectory names layer b).scopes) :
    pattern ∈ Table.names b.scopes ∨ PatternOf names pattern := by
  have hnested : ∀ (nested scopes : Table ScopeOverride),
      pattern ∈ Table.names (nested.foldl (fun scopes (entry : String × ScopeOverride) =>
        insertAbove scopes (escapedDirectory names ++ "/" ++ entry.1) entry.2) scopes) →
      pattern ∈ Table.names scopes ∨ PatternOf names pattern := by
    intro nested
    induction nested with
    | nil => exact fun scopes hmem => Or.inl hmem
    | cons entry rest ih =>
      intro scopes hmem
      rcases ih _ hmem with hmem | hown
      · exact (mem_names_insertAbove hmem).imp_right fun heq => ⟨entry.1, heq⟩
      · exact Or.inr hown
  rcases hnested _ _ h with hmem | hown
  · split at hmem
    · exact Or.inl hmem
    · exact (mem_names_insertAbove hmem).imp_right fun heq => ⟨"**", heq.trans (subtree_eq names)⟩
  · exact Or.inr hown

theorem setsAt_addDirectory {b : Below} {pattern : String} {o : ScopeOverride}
    (h : SetsAt b.scopes pattern o) (names : Place) (layer : Layer) :
    SetsAt (addDirectory names layer b).scopes pattern o := by
  refine setsAt_addScopes ?_ _ _
  split
  · exact h
  · exact h.insertAbove _ _

/-- The own settings of a directory's file are those of its subtree. -/
theorem setsAt_subtree (names : Place) {layer : Layer} (b : Below)
    (h : layer.config.scopePart.isEmpty = false) :
    SetsAt (addDirectory names layer b).scopes (escapedDirectory names ++ "/**")
      layer.config.scopePart := by
  refine setsAt_addScopes ?_ _ _
  rw [if_neg (by simp [h])]
  exact setsAt_insertAbove _ _ _

/-- What a scan of some directories makes of the scopes that are there before: whatever comes in
belongs to a directory whose file is found, nothing that is set is lost, and every file that is
found sets what it says for the subtree of its directory. -/
structure Scanned (r : Resolver) (disk : Disk) (root : Place) (seen : List String)
    (dirs : List Place) (b b' : Below) : Prop where
  patterns : ∀ pattern ∈ Table.names b'.scopes, pattern ∈ Table.names b.scopes ∨
    ∃ names ∈ dirs, ∃ layer, r.Finds disk root seen names layer ∧ PatternOf names pattern
  keeps : ∀ pattern o, SetsAt b.scopes pattern o → SetsAt b'.scopes pattern o
  subtrees : ∀ names ∈ dirs, ∀ layer, r.Finds disk root seen names layer →
    layer.config.scopePart.isEmpty = false →
    SetsAt b'.scopes (escapedDirectory names ++ "/**") layer.config.scopePart

variable {root names : Place} {seen : List String} {dirs : List Place} {b b' : Below}

theorem Finds.unique {layer layer' : Layer} (h : r.Finds disk root seen names layer)
    (h' : r.Finds disk root seen names layer') : layer = layer' := by
  obtain ⟨path, hpath, -, hlayer⟩ := h
  obtain ⟨path', hpath', -, hlayer'⟩ := h'
  rw [hpath] at hpath'
  cases hpath'
  rw [hlayer] at hlayer'
  exact Except.ok.inj hlayer'

theorem Scanned.pass (h : r.Scanned disk root seen dirs b b')
    (hnone : ∀ layer, ¬ r.Finds disk root seen names layer) :
    r.Scanned disk root seen (names :: dirs) b b' where
  patterns pattern hmem := by
    refine (h.patterns pattern hmem).imp_right ?_
    rintro ⟨names', hnames', hfinds⟩
    exact ⟨names', List.mem_cons_of_mem _ hnames', hfinds⟩
  keeps := h.keeps
  subtrees names' hnames' layer hfinds := by
    rcases List.mem_cons.mp hnames' with rfl | hnames'
    · exact absurd hfinds (hnone layer)
    · exact h.subtrees names' hnames' layer hfinds

theorem Scanned.next {layer : Layer} (hfinds : r.Finds disk root seen names layer)
    (h : r.Scanned disk root seen dirs (addDirectory names layer b) b') :
    r.Scanned disk root seen (names :: dirs) b b' where
  patterns pattern hmem := by
    rcases h.patterns pattern hmem with hmem | ⟨names', hnames', hown⟩
    · exact (mem_names_addDirectory hmem).imp_right fun hown =>
        ⟨names, List.mem_cons_self, layer, hfinds, hown⟩
    · exact Or.inr ⟨names', List.mem_cons_of_mem _ hnames', hown⟩
  keeps pattern o hsets := h.keeps pattern o (setsAt_addDirectory hsets names layer)
  subtrees names' hnames' layer' hfinds' hsome := by
    rcases List.mem_cons.mp hnames' with rfl | hnames'
    · obtain rfl := hfinds.unique hfinds'
      exact h.keeps _ _ (setsAt_subtree _ b hsome)
    · exact h.subtrees names' hnames' layer' hfinds' hsome

theorem scanned_of_scanBelow (h : r.scanBelow disk root seen dirs b = .ok b') :
    r.Scanned disk root seen dirs b b' := by
  replace h := sweep_of_scanBelow h
  induction h with
  | done => exact ⟨fun _ hmem => Or.inl hmem, fun _ _ hsets => hsets, by simp⟩
  | pass hread _ ih =>
    refine ih.pass ?_
    rintro layer ⟨path, hpath, hnew, -⟩
    exact hnew (hread path hpath)
  | next hpath hnew hlayer _ ih => exact ih.next ⟨_, hpath, hnew, hlayer⟩

/-! ## With the directories below and without them -/

/-- The file of a directory below a project is found when the project is resolved. -/
def Scans (r : Resolver) (disk : Disk) (project : String) (explicit : Option String)
    (names : Place) (layer : Layer) : Prop :=
  ∃ root g, projectPlace disk project = .ok root ∧ r.gather disk root explicit = .ok g ∧
    names ∈ scannedDirectories disk root ∧ r.Finds disk root g.seen names layer

/-- The same resolution without the directories below a project. -/
def withoutScan (r : Resolver) : Resolver := { r with scan := false }

theorem walkUp_withoutScan (dirs : List Place) (g : Gathered) :
    r.withoutScan.walkUp disk dirs g = r.walkUp disk dirs g := by
  induction dirs generalizing g with
  | nil => rw [walkUp_nil, walkUp_nil]
  | cons dir above ih =>
    rw [walkUp_cons, walkUp_cons]
    simp only [ih]
    rfl

/-- Whether the directories below are searched plays no part in what counts for the whole
project. -/
theorem gather_withoutScan (root : Place) :
    r.withoutScan.gather disk root explicit = r.gather disk root explicit := by
  have hexplicit : r.withoutScan.addExplicit disk explicit = r.addExplicit disk explicit := rfl
  have henvironment : r.withoutScan.addEnvironment disk = r.addEnvironment disk := rfl
  have hmanifest : r.withoutScan.addManifest disk = r.addManifest disk := rfl
  simp only [gather, hexplicit, henvironment, hmanifest, walkUp_withoutScan]

/-- A result has more scopes and sources than another one, and is the same otherwise. -/
structure Extends (loaded plain : Loaded) : Prop where
  included : loaded.config.included = plain.config.included
  excluded : loaded.config.excluded = plain.config.excluded
  extensions : loaded.config.extensions = plain.config.extensions
  plugins : loaded.config.plugins = plain.config.plugins
  inherited : loaded.config.inherited = plain.config.inherited
  linterConfig : loaded.config.linterConfig = plain.config.linterConfig
  moduleFile : loaded.moduleFile = plain.moduleFile
  sources : plain.sources <+: loaded.sources

theorem names_of_mem_scannedDirectories {p : String → Prop} (h : disk.tree.EveryName p)
    (hnames : names ∈ scannedDirectories disk root) : ∀ name ∈ names, p name := by
  unfold scannedDirectories at hnames
  split at hnames
  · rename_i tree htree
    exact (h.at? htree).sorted.of_mem_subdirectories (by simp) hnames
  · cases hnames

/-- Patterns that a scan brings in match only what is below the directories that it finds. -/
theorem scopeFor_joined_of_outside {g : Gathered} {path : String}
    (hscanned : r.Scanned disk root seen (scannedDirectories disk root) {} b)
    (hnames : disk.tree.EveryName fun name => '\\' ∉ name.toList)
    (hpath : ∀ names ∈ scannedDirectories disk root, ∀ layer,
      r.Finds disk root seen names layer → ¬ IsBelow names path) :
    (Loaded.joined g b).config.scopeFor path = (Loaded.joined g {}).config.scopeFor path := by
  refine ResolvedConfig.scopeFor_ofMerged (fun pattern hmem => ?_) _
  rcases hscanned.patterns pattern hmem with hmem | ⟨names, hdir, layer, hfinds, rest, rfl⟩
  · cases hmem
  · -- A pattern of a directory that matches the path puts it below the directory.
    refine Bool.eq_false_iff.mpr fun hmatch => ?_
    obtain ⟨inside, hinside, -⟩ := (globMatches_escapedDirectory_iff
      (names_of_mem_scannedDirectories hnames hdir) rest _).mp hmatch
    exact hpath names hdir layer hfinds ⟨inside, hinside⟩

/-- What a file that is found says of its own directory, it says of all that is below. -/
theorem covers_joined_of_below {g : Gathered} {path : String} {layer : Layer}
    (hscanned : r.Scanned disk root seen (scannedDirectories disk root) {} b)
    (hnames : disk.tree.EveryName fun name => '\\' ∉ name.toList)
    (hdir : names ∈ scannedDirectories disk root) (hfinds : r.Finds disk root seen names layer)
    (hpath : IsBelow names path) (hsome : layer.config.scopePart.isEmpty = false) :
    ((Loaded.joined g b).config.scopeFor path).Covers layer.config.scopePart := by
  have hmatch : globMatches (escapedDirectory names ++ "/**")
      (ResolvedConfig.slashed path) = true := by
    obtain ⟨rest, hrest⟩ := hpath
    rw [subtree_eq]
    exact (globMatches_escapedDirectory_iff (names_of_mem_scannedDirectories hnames hdir)
      _ _).mpr ⟨rest, hrest, globMatches_everything rest⟩
  obtain ⟨scope, hscope, hcovers⟩ := hscanned.subtrees names hdir layer hfinds hsome
  -- The scopes of the directories come in later than all others.
  have hsets := ResolvedConfig.setsAt_insertAllLater
    (ResolvedConfig.insertAllLater (ResolvedConfig.globalScopes
      (Configuration.mergeAll g.layers)) ((Configuration.mergeAll g.layers).scopes.getD []))
    (Table.mem_of_find? hscope)
  exact (ResolvedConfig.covers_scopeFor hsets hmatch).trans hcovers

/-- A file that is found below a project counts for the paths below its directory and for no
others. For these it leaves out the linters that it skips and sets the keys that it sets. -/
theorem scan_confined {project : String} {loaded : Loaded} (hscan : r.scan = true)
    (hnames : disk.tree.EveryName fun name => '\\' ∉ name.toList)
    (h : r.resolve disk project explicit = .ok loaded) :
    ∃ plain, r.withoutScan.resolve disk project explicit = .ok plain ∧ Extends loaded plain ∧
      (∀ path, (∀ names layer, r.Scans disk project explicit names layer → ¬ IsBelow names path) →
        loaded.config.scopeFor path = plain.config.scopeFor path) ∧
      ∀ names layer, r.Scans disk project explicit names layer → ∀ path, IsBelow names path →
        (∀ linter ∈ layer.config.skip.getD [], (loaded.config.scopeFor path).skips linter = true) ∧
        ∀ key ∈ Table.names (layer.config.severity.getD []),
          ((loaded.config.scopeFor path).severityOf key).isSome := by
  obtain ⟨root, hroot, g, hg, b, hb, rfl⟩ := resolve_eq_ok_iff.mp h
  rw [below, if_pos hscan] at hb
  have hscanned := scanned_of_scanBelow hb
  refine ⟨Loaded.joined g {}, ?_, ?_, fun path hpath => ?_, fun names layer hscans path hpath => ?_⟩
  · exact resolve_eq_ok_iff.mpr
      ⟨root, hroot, g, (gather_withoutScan root).trans hg, {}, rfl, rfl⟩
  · refine ⟨rfl, rfl, rfl, rfl, rfl, rfl, rfl, ?_⟩
    show g.sources.reverse ++ [] <+: g.sources.reverse ++ b.sources
    rw [List.append_nil]
    exact List.prefix_append _ _
  · exact scopeFor_joined_of_outside hscanned hnames fun names hdir layer hfinds =>
      hpath names layer ⟨root, g, hroot, hg, hdir, hfinds⟩
  · obtain ⟨root', g', hroot', hg', hdir, hfinds⟩ := hscans
    rw [hroot] at hroot'
    cases hroot'
    rw [hg] at hg'
    cases hg'
    cases hempty : layer.config.scopePart.isEmpty with
    | true =>
      -- A file that sets nothing brings in no scope for its directory.
      simp only [ScopeOverride.isEmpty, Configuration.scopePart, Bool.and_eq_true,
        List.isEmpty_iff] at hempty
      simp [hempty.1.1, hempty.1.2, Table.names]
    | false =>
      have hall : ((Loaded.joined g b).config.scopeFor path).Covers layer.config.scopePart :=
        covers_joined_of_below hscanned hnames hdir hfinds hpath hempty
      refine ⟨fun linter hlinter => ?_, fun key hkey => ?_⟩
      · exact List.contains_iff_mem.mpr (hall.skip linter hlinter)
      · exact Table.find?_isSome_iff.mpr (hall.severity key hkey)

/-- A project with a directory whose name is a pattern that matches another name. -/
def bracketedDirectory : Disk where
  tree := .directory [
    ("p", .directory [
      ("viola.json", .file (some "\x7b'root': true, 'severity': \x7b'naming': 'error'\x7d\x7d")),
      ("lib[1]", .directory [
        ("viola.json", .file (some
          "\x7b'skip': ['size'], 'scopes': \x7b'*.ts': \x7b'skip': ['naming']\x7d\x7d\x7d"))])])]
  cwd := []

theorem scan_confined_bracketed_directory :
    ∃ loaded plain : Loaded, ∃ layer : Layer,
      bracketedDirectory.tree.EveryName (fun name => '\\' ∉ name.toList) ∧
        (⟨none, fun _ _ => none, true⟩ : Resolver).resolve bracketedDirectory "/p" none =
          .ok loaded ∧
        (⟨none, fun _ _ => none, true⟩ : Resolver).withoutScan.resolve
          bracketedDirectory "/p" none = .ok plain ∧
        (⟨none, fun _ _ => none, true⟩ : Resolver).Scans bracketedDirectory "/p" none
          ["lib[1]"] layer ∧
        layer.config.skip = some ["size"] ∧
        (loaded.config.scopeFor "lib[1]/a.ts").skips "size" = true ∧
        loaded.config.scopeFor "lib1/a.ts" = plain.config.scopeFor "lib1/a.ts" := by
  have hnames : bracketedDirectory.tree.EveryName (fun name => '\\' ∉ name.toList) := by
    refine .directory (by decide) (List.forall_mem_singleton.mpr ?_)
    refine .directory (by decide) (List.forall_mem_cons.mpr ⟨.file _, ?_⟩)
    refine List.forall_mem_singleton.mpr (.directory (by decide) ?_)
    exact List.forall_mem_singleton.mpr (.file _)
  have hrun : passes (fun _ => true)
      ((⟨none, fun _ _ => none, true⟩ : Resolver).resolve bracketedDirectory "/p" none) = true := by
    decide +kernel
  obtain ⟨loaded, h, -⟩ := exists_of_passes hrun
  have hproject : passes (· == ["p"]) (projectPlace bracketedDirectory "/p") = true := by
    decide +kernel
  obtain ⟨root, hroot, hp⟩ := exists_of_passes hproject
  obtain rfl : root = ["p"] := eq_of_beq hp
  have hgather : passes (fun g => g.seen == ["/p/viola.json"])
      ((⟨none, fun _ _ => none, true⟩ : Resolver).gather bracketedDirectory ["p"] none) = true := by
    decide +kernel
  obtain ⟨g, hg, hseen⟩ := exists_of_passes hgather
  have hload : passes (fun layer => layer.config.skip == some ["size"])
      ((⟨none, fun _ _ => none, true⟩ : Resolver).load bracketedDirectory .declarativeFile
        "/p/lib[1]/viola.json") = true := by
    decide +kernel
  obtain ⟨layer, hlayer, hskip⟩ := exists_of_passes hload
  have hdirs : scannedDirectories bracketedDirectory ["p"] = [["lib[1]"]] := by decide +kernel
  have hscans : (⟨none, fun _ _ => none, true⟩ : Resolver).Scans bracketedDirectory "/p" none
      ["lib[1]"] layer := by
    refine ⟨["p"], g, hroot, hg, ?_, "/p/lib[1]/viola.json", by decide +kernel, ?_, hlayer⟩
    · rw [hdirs]
      exact List.mem_singleton_self _
    · rw [eq_of_beq hseen]
      decide
  have hlib : layer.config.skip = some ["size"] := eq_of_beq hskip
  obtain ⟨plain, hplain, -, houtside, hinside⟩ := scan_confined rfl hnames h
  refine ⟨loaded, plain, layer, hnames, h, hplain, hscans, hlib, ?_, ?_⟩
  · refine (hinside _ _ hscans "lib[1]/a.ts" ⟨"a.ts", by decide +kernel⟩).1 "size" ?_
    rw [hlib]
    exact List.mem_singleton_self _
  · refine houtside _ ?_
    rintro names layer' ⟨root, g', hroot', -, hdir, -⟩ ⟨rest, hrest⟩
    rw [hroot] at hroot'
    cases hroot'
    rw [hdirs] at hdir
    rw [List.mem_singleton.mp hdir] at hrest
    have hchars := congrArg (fun s => s.toList.take 4) hrest
    revert hchars
    simp [ResolvedConfig.slashed]

end Resolver

end LintFront
