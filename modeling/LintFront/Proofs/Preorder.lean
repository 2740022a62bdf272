import LintFront.Proofs.Repeated
import Mathlib.Data.List.Lex

/-!
# The order of the scan

The search below a project goes through all directories but those that are passed over, and what is
in these. It takes a directory before those in it, and neighbours in the order of their bytes. Each
directory whose configuration file has not been read for the project brings in that file and the
presets of the file, limited to the directory.

* `Place.Precedes`: the order in which directories are visited.
* `FileTree.Ordered`: neighbours are in the order of their names, which is so once they are sorted.
* `FileTree.Searched`: the directories that a search goes through, links and order aside.
* `Resolver.Counts`: a directory below a project brings in its file.
* `Resolver.Found`: such a file, with its presets.
* `Resolver.sources_in_preorder`: the sources of a project with the directories below it.
-/

namespace LintFront

/-! ## The order of places -/

theorem nameBytes_inj {a b : String} (h : nameBytes a = nameBytes b) : a = b :=
  String.toByteArray_inj.mp (ByteArray.ext (Array.toList_inj.mp h))

theorem nameBytes_lt_of_not {a b : String} (h : ¬ nameBytes a < nameBytes b) (hne : a ≠ b) :
    nameBytes b < nameBytes a := by
  by_contra hnot
  exact hne (nameBytes_inj (List.le_antisymm hnot h))

theorem ne_of_nameBytes_lt {a b : String} (h : nameBytes a < nameBytes b) : a ≠ b := by
  rintro rfl
  exact List.lt_irrefl _ h

/-- A place comes before those below it, and where two ways part, the smaller name decides. -/
def Place.Precedes (a b : Place) : Prop := List.Lex (fun x y => nameBytes x < nameBytes y) a b

namespace Place

theorem Precedes.ne {a b : Place} (h : a.Precedes b) : a ≠ b := by
  rintro rfl
  exact List.lex_irrefl (fun name => List.lt_irrefl (nameBytes name)) a h

theorem precedes_below (here : Place) {rest : Place} (h : rest ≠ []) :
    here.Precedes (here ++ rest) := by
  obtain ⟨name, names, rfl⟩ := List.exists_cons_of_ne_nil h
  have hnil : List.Lex (fun x y => nameBytes x < nameBytes y) [] (name :: names) := .nil
  have hbelow := hnil.append_left _ here
  rwa [List.append_nil] at hbelow

theorem Precedes.not_isPrefix {a b : Place} (h : a.Precedes b) : ¬ b <+: a := by
  rintro ⟨rest, rfl⟩
  cases rest with
  | nil => exact h.ne (List.append_nil b)
  | cons name rest =>
    exact List.lex_asymm (fun hxy => List.lt_asymm hxy) h (precedes_below b (by simp))

theorem precedes_of_lt (here : Place) {name other : String} (h : nameBytes name < nameBytes other)
    (rest rest' : Place) : (here ++ name :: rest).Precedes (here ++ other :: rest') := by
  have hpart : List.Lex (fun x y => nameBytes x < nameBytes y) (name :: rest) (other :: rest') :=
    .rel h
  exact hpart.append_left _ here

end Place

/-! ## Sorted trees -/

/-- Each directory of a tree holds each name once. -/
inductive FileTree.NamedOnce : FileTree → Prop
  | file (text : Option String) : NamedOnce (.file text)
  | link (target : String) : NamedOnce (.link target)
  | directory {entries : List (String × FileTree)} (hnames : (entries.map Prod.fst).Nodup)
      (htrees : ∀ entry ∈ entries, NamedOnce entry.2) : NamedOnce (.directory entries)

namespace FileTree

@[simp]
theorem namedOnce_file (text : Option String) : (FileTree.file text).NamedOnce := .file text

@[simp]
theorem namedOnce_link (target : String) : (FileTree.link target).NamedOnce := .link target

@[simp]
theorem namedOnce_directory_iff {entries : List (String × FileTree)} :
    (directory entries).NamedOnce ↔
      (entries.map Prod.fst).Nodup ∧ ∀ entry ∈ entries, entry.2.NamedOnce := by
  constructor
  · intro h
    cases h with
    | directory hnames htrees => exact ⟨hnames, htrees⟩
  · rintro ⟨hnames, htrees⟩
    exact .directory hnames htrees

theorem NamedOnce.at? {tree inner : FileTree} (h : tree.NamedOnce) {place : Place}
    (hinner : tree.at? place = some inner) : inner.NamedOnce := by
  induction place generalizing tree with
  | nil =>
    cases hinner
    exact h
  | cons name rest ih =>
    cases h with
    | file text => simp [FileTree.at?] at hinner
    | link target => simp [FileTree.at?] at hinner
    | directory _ htrees =>
      rw [FileTree.at?] at hinner
      split at hinner
      · rename_i found hfound
        exact ih (htrees _ (Table.mem_of_find? hfound)) hinner
      · cases hinner

theorem perm_names_sortedEntries (entries : List (String × FileTree)) :
    ((sortedEntries entries).map Prod.fst).Perm (entries.map Prod.fst) := by
  induction entries with
  | nil => exact .refl _
  | cons entry rest ih =>
    obtain ⟨name, tree⟩ := entry
    rw [sortedEntries]
    exact ((perm_insertEntry _ _).map Prod.fst).trans (ih.cons name)

/-- The names of entries go up. -/
def NamesUp (entries : List (String × FileTree)) : Prop :=
  entries.Pairwise fun a b => nameBytes a.1 < nameBytes b.1

/-- In each directory of a tree the names go up. -/
inductive Ordered : FileTree → Prop
  | file (text : Option String) : Ordered (.file text)
  | link (target : String) : Ordered (.link target)
  | directory {entries : List (String × FileTree)} (hnames : NamesUp entries)
      (htrees : ∀ entry ∈ entries, Ordered entry.2) : Ordered (.directory entries)

theorem Ordered.namedOnce {tree : FileTree} (h : tree.Ordered) : tree.NamedOnce := by
  induction h with
  | file text => exact .file text
  | link target => exact .link target
  | directory hnames _ ih =>
    refine .directory (List.pairwise_map.mpr ?_) ih
    exact hnames.imp ne_of_nameBytes_lt

theorem NamesUp.insertEntry {entry : String × FileTree} {entries : List (String × FileTree)}
    (h : NamesUp entries) (hnew : entry.1 ∉ entries.map Prod.fst) :
    NamesUp (insertEntry entry entries) := by
  induction entries with
  | nil => exact List.pairwise_singleton _ _
  | cons other rest ih =>
    obtain ⟨hother, hrest⟩ := List.pairwise_cons.mp h
    rw [List.map_cons, List.mem_cons, not_or] at hnew
    obtain ⟨hne, hnew⟩ := hnew
    rw [FileTree.insertEntry]
    split
    · rename_i hlt
      refine List.pairwise_cons.mpr ⟨fun e he => ?_, ih hrest hnew⟩
      rcases mem_insertEntry.mp he with rfl | he
      · exact hlt
      · exact hother e he
    · rename_i hnot
      have hlt : nameBytes entry.1 < nameBytes other.1 := nameBytes_lt_of_not hnot (Ne.symm hne)
      refine List.pairwise_cons.mpr ⟨List.forall_mem_cons.mpr ⟨hlt, fun e he => ?_⟩, h⟩
      exact List.lt_trans hlt (hother e he)

mutual

theorem NamedOnce.ordered_sorted : ∀ {tree : FileTree}, tree.NamedOnce → tree.sorted.Ordered
  | .file text, _ => .file text
  | .link target, _ => .link target
  | .directory entries, h => by
    cases h with
    | directory hnames htrees =>
      obtain ⟨hup, hordered⟩ := NamedOnce.ordered_sortedEntries hnames htrees
      exact .directory hup hordered

theorem NamedOnce.ordered_sortedEntries : ∀ {entries : List (String × FileTree)},
    (entries.map Prod.fst).Nodup → (∀ entry ∈ entries, entry.2.NamedOnce) →
    NamesUp (FileTree.sortedEntries entries) ∧
      ∀ entry ∈ FileTree.sortedEntries entries, entry.2.Ordered
  | [], _, _ => ⟨.nil, by simp [FileTree.sortedEntries]⟩
  | (name, tree) :: rest, hnames, htrees => by
    obtain ⟨hname, hrestNames⟩ := List.nodup_cons.mp hnames
    obtain ⟨htree, hrestTrees⟩ := List.forall_mem_cons.mp htrees
    obtain ⟨hup, hordered⟩ := NamedOnce.ordered_sortedEntries hrestNames hrestTrees
    have hnew : name ∉ (FileTree.sortedEntries rest).map Prod.fst := fun hmem =>
      hname ((perm_names_sortedEntries rest).mem_iff.mp hmem)
    rw [FileTree.sortedEntries]
    refine ⟨hup.insertEntry hnew, fun entry hentry => ?_⟩
    rcases mem_insertEntry.mp hentry with rfl | hentry
    · exact htree.ordered_sorted
    · exact hordered entry hentry

end

/-- What is inserted comes before whatever has its name. -/
theorem find?_insertEntry (entry : String × FileTree) (entries : Table FileTree) (name : String) :
    Table.find? (insertEntry entry entries) name =
      if name == entry.1 then some entry.2 else Table.find? entries name := by
  induction entries with
  | nil => rw [insertEntry, Table.find?_cons]
  | cons other rest ih =>
    rw [insertEntry]
    split
    · rename_i hlt
      have hne : other.1 ≠ entry.1 := ne_of_nameBytes_lt hlt
      rw [Table.find?_cons, ih, Table.find?_cons]
      by_cases hname : name = other.1
      · simp [hname, hne]
      · simp [hname]
    · rw [Table.find?_cons]

theorem find?_sortedEntries (entries : Table FileTree) (name : String) :
    Table.find? (sortedEntries entries) name = (Table.find? entries name).map sorted := by
  induction entries with
  | nil => rfl
  | cons entry rest ih =>
    obtain ⟨key, tree⟩ := entry
    rw [sortedEntries, find?_insertEntry, ih, Table.find?_cons]
    split <;> rfl

/-- Sorting moves nothing to another place. -/
theorem at?_sorted (tree : FileTree) (place : Place) :
    tree.sorted.at? place = (tree.at? place).map sorted := by
  induction place generalizing tree with
  | nil => rfl
  | cons name rest ih =>
    cases tree with
    | file text => rfl
    | link target => rfl
    | directory entries =>
      have hfind : List.lookup name (sortedEntries entries) =
          (List.lookup name entries).map sorted := find?_sortedEntries entries name
      rw [sorted, FileTree.at?, FileTree.at?, hfind]
      cases List.lookup name entries with
      | none => rfl
      | some inner => exact ih inner

/-! ## The directories that are searched -/

mutual

theorem isPrefix_of_mem_subdirectories : ∀ {tree : FileTree} {here place : Place},
    place ∈ tree.subdirectories here → here <+: place
  | .file _, here, place, h => by simp [subdirectories] at h
  | .link _, here, place, h => by simp [subdirectories] at h
  | .directory entries, here, place, h => by
    obtain ⟨name, -, hway⟩ := isPrefix_of_mem_entryDirectories h
    exact (List.prefix_append here [name]).trans hway

theorem isPrefix_of_mem_entryDirectories : ∀ {entries : List (String × FileTree)}
    {here place : Place}, place ∈ entryDirectories here entries →
    ∃ name ∈ entries.map Prod.fst, here ++ [name] <+: place
  | [], here, place, h => by simp [entryDirectories] at h
  | (name, tree) :: rest, here, place, h => by
    have hrest : place ∈ entryDirectories here rest →
        ∃ n ∈ ((name, tree) :: rest).map Prod.fst, here ++ [n] <+: place := by
      intro hmem
      obtain ⟨n, hn, hway⟩ := isPrefix_of_mem_entryDirectories hmem
      exact ⟨n, List.mem_cons_of_mem _ hn, hway⟩
    have htree : place ∈ tree.subdirectories (here ++ [name]) → here ++ [name] <+: place :=
      isPrefix_of_mem_subdirectories
    unfold entryDirectories at h
    split at h
    · split at h
      · exact hrest h
      · rcases List.mem_append.mp h with h | h
        · refine ⟨name, List.mem_cons_self, ?_⟩
          rcases List.mem_cons.mp h with rfl | h
          · exact List.prefix_refl _
          · exact htree h
        · exact hrest h
    · exact hrest h

end

theorem isPrefix_of_mem_cons_subdirectories {tree : FileTree} {here place : Place}
    (h : place ∈ here :: tree.subdirectories here) : here <+: place := by
  rcases List.mem_cons.mp h with rfl | h
  · exact List.prefix_refl _
  · exact isPrefix_of_mem_subdirectories h

/-- A place strictly below a directory is no part of the way to it. -/
theorem not_isPrefix_of_mem_subdirectories {tree : FileTree} {here place : Place}
    (h : place ∈ tree.subdirectories here) : ¬ place <+: here := by
  cases tree with
  | file text => simp [subdirectories] at h
  | link target => simp [subdirectories] at h
  | directory entries =>
    obtain ⟨name, -, hway⟩ := isPrefix_of_mem_entryDirectories h
    intro hplace
    have hlength := (hway.trans hplace).length_le
    rw [List.length_append, List.length_singleton] at hlength
    omega

/-- Names lead to a directory strictly below the root of a tree, by directories none of which is
passed over. -/
structure Searched (tree : FileTree) (names : Place) : Prop where
  below : names ≠ []
  directory : ∃ entries, tree.at? names = some (.directory entries)
  visible : ∀ name ∈ names, isSkippedDirectory name = false

theorem searched_sorted_iff {tree : FileTree} {names : Place} :
    tree.sorted.Searched names ↔ tree.Searched names := by
  have hdirectory : (∃ entries, tree.sorted.at? names = some (.directory entries)) ↔
      ∃ entries, tree.at? names = some (.directory entries) := by
    rw [at?_sorted]
    cases tree.at? names with
    | none => simp
    | some inner => cases inner <;> simp [sorted]
  constructor
  · intro h
    exact ⟨h.below, hdirectory.mp h.directory, h.visible⟩
  · intro h
    exact ⟨h.below, hdirectory.mpr h.directory, h.visible⟩

theorem mem_entryDirectories_iff {entries : List (String × FileTree)} {here place : Place} :
    place ∈ entryDirectories here entries ↔ ∃ name inner, (name, directory inner) ∈ entries ∧
      isSkippedDirectory name = false ∧ (place = here ++ [name] ∨
        place ∈ (directory inner).subdirectories (here ++ [name])) := by
  induction entries with
  | nil => simp [entryDirectories]
  | cons entry rest ih =>
    obtain ⟨key, tree⟩ := entry
    unfold entryDirectories
    simp only [List.mem_cons, Prod.mk.injEq, or_and_right, exists_or, ← ih]
    split
    · rename_i inner
      by_cases hskipped : isSkippedDirectory key = true
      · simp [hskipped]
      · simp [hskipped, or_assoc]
    · rename_i hother
      have hno : ∀ inner, directory inner ≠ tree := fun inner heq => hother inner heq.symm
      simp [hno]

/-- The first name of the way is that of an entry. -/
theorem cons_mem_entryDirectories_iff {entries : List (String × FileTree)} {here rest : Place}
    {name : String} :
    here ++ name :: rest ∈ entryDirectories here entries ↔
      ∃ inner, (name, directory inner) ∈ entries ∧ isSkippedDirectory name = false ∧
        (rest = [] ∨
          here ++ [name] ++ rest ∈ (directory inner).subdirectories (here ++ [name])) := by
  rw [mem_entryDirectories_iff]
  constructor
  · rintro ⟨key, inner, hmem, hvisible, hplace⟩
    have hway : here ++ [key] <+: here ++ name :: rest := by
      rcases hplace with hplace | hplace
      · exact hplace ▸ List.prefix_refl _
      · exact isPrefix_of_mem_subdirectories hplace
    obtain rfl : key = name :=
      (List.cons_prefix_cons.mp ((List.prefix_append_right_inj here).mp hway)).1
    refine ⟨inner, hmem, hvisible, ?_⟩
    rw [List.append_assoc, List.singleton_append]
    exact hplace.imp_left fun heq => (List.cons.inj (List.append_cancel_left heq)).2
  · rintro ⟨inner, hmem, hvisible, hrest⟩
    refine ⟨name, inner, hmem, hvisible, ?_⟩
    rw [List.append_assoc, List.singleton_append] at hrest
    exact hrest.imp_left fun heq => by rw [heq]

theorem searched_cons_iff {entries : Table FileTree} (hnames : entries.Distinct) {name : String}
    {rest : Place} :
    (directory entries).Searched (name :: rest) ↔ ∃ inner, (name, directory inner) ∈ entries ∧
      isSkippedDirectory name = false ∧ (rest = [] ∨ (directory inner).Searched rest) := by
  constructor
  · rintro ⟨-, ⟨last, hlast⟩, hvisible⟩
    obtain ⟨hname, hrest⟩ := List.forall_mem_cons.mp hvisible
    rw [FileTree.at?] at hlast
    split at hlast
    · rename_i tree htree
      have hmem : (name, tree) ∈ entries := Table.mem_of_find? htree
      cases rest with
      | nil =>
        cases hlast
        exact ⟨last, hmem, hname, Or.inl rfl⟩
      | cons next rest =>
        cases tree with
        | file text => cases hlast
        | link target => cases hlast
        | directory inner =>
          exact ⟨inner, hmem, hname, Or.inr ⟨List.cons_ne_nil _ _, ⟨last, hlast⟩, hrest⟩⟩
    · cases hlast
  · rintro ⟨inner, hmem, hname, hrest⟩
    have hfind : List.lookup name entries = some (directory inner) := hnames.find?_of_mem hmem
    have hat : (directory entries).at? (name :: rest) = (directory inner).at? rest := by
      rw [FileTree.at?, hfind]
    rcases hrest with rfl | hrest
    · exact ⟨List.cons_ne_nil _ _, ⟨inner, hat⟩, List.forall_mem_singleton.mpr hname⟩
    · obtain ⟨last, hlast⟩ := hrest.directory
      exact ⟨List.cons_ne_nil _ _, ⟨last, hat.trans hlast⟩,
        List.forall_mem_cons.mpr ⟨hname, hrest.visible⟩⟩

/-- The directories of a list are those that a search goes through. -/
theorem NamedOnce.mem_subdirectories_iff {tree : FileTree} (h : tree.NamedOnce)
    {here names : Place} :
    here ++ names ∈ tree.subdirectories here ↔ tree.Searched names := by
  induction names generalizing tree here with
  | nil =>
    refine iff_of_false (fun hmem => ?_) fun hsearched => hsearched.below rfl
    rw [List.append_nil] at hmem
    exact not_isPrefix_of_mem_subdirectories hmem (List.prefix_refl _)
  | cons name rest ih =>
    cases h with
    | file text =>
      refine iff_of_false (by simp [subdirectories]) fun hsearched => ?_
      obtain ⟨_, hnone⟩ := hsearched.directory
      cases hnone
    | link target =>
      refine iff_of_false (by simp [subdirectories]) fun hsearched => ?_
      obtain ⟨_, hnone⟩ := hsearched.directory
      cases hnone
    | directory hnames htrees =>
      rw [subdirectories, cons_mem_entryDirectories_iff, searched_cons_iff hnames]
      refine exists_congr fun inner => and_congr_right fun hmem => ?_
      exact and_congr_right fun _ => or_congr_right (ih (htrees _ hmem))

theorem precedes_of_mem_subdirectories {tree : FileTree} {here place : Place}
    (h : place ∈ tree.subdirectories here) : here.Precedes place := by
  obtain ⟨names, rfl⟩ := isPrefix_of_mem_subdirectories h
  apply Place.precedes_below
  rintro rfl
  rw [List.append_nil] at h
  exact not_isPrefix_of_mem_subdirectories h (List.prefix_refl _)

mutual

/-- Directories are searched in their order. -/
theorem Ordered.pairwise_subdirectories : ∀ {tree : FileTree} {here : Place}, tree.Ordered →
    (tree.subdirectories here).Pairwise Place.Precedes
  | .file _, here, _ => .nil
  | .link _, here, _ => .nil
  | .directory entries, here, h => by
    cases h with
    | directory hnames htrees => exact Ordered.pairwise_entryDirectories hnames htrees

theorem Ordered.pairwise_entryDirectories : ∀ {entries : List (String × FileTree)} {here : Place},
    NamesUp entries → (∀ entry ∈ entries, entry.2.Ordered) →
    (entryDirectories here entries).Pairwise Place.Precedes
  | [], here, _, _ => .nil
  | (name, tree) :: rest, here, hnames, htrees => by
    obtain ⟨hname, hrestNames⟩ := List.pairwise_cons.mp hnames
    obtain ⟨htree, hrestTrees⟩ := List.forall_mem_cons.mp htrees
    have hrest : (entryDirectories here rest).Pairwise Place.Precedes :=
      Ordered.pairwise_entryDirectories hrestNames hrestTrees
    have hinner : (tree.subdirectories (here ++ [name])).Pairwise Place.Precedes :=
      htree.pairwise_subdirectories
    have hall : ((here ++ [name]) :: tree.subdirectories (here ++ [name]) ++
        entryDirectories here rest).Pairwise Place.Precedes := by
      refine List.pairwise_append.mpr
        ⟨List.pairwise_cons.mpr ⟨fun place hplace => ?_, hinner⟩, hrest, fun a ha b hb => ?_⟩
      · exact precedes_of_mem_subdirectories hplace
      · -- What is in a directory comes before its later neighbours and what is in these.
        obtain ⟨before, rfl⟩ := isPrefix_of_mem_cons_subdirectories ha
        obtain ⟨other, hother, after, rfl⟩ := isPrefix_of_mem_entryDirectories hb
        obtain ⟨entry, hentry, rfl⟩ := List.mem_map.mp hother
        rw [List.append_assoc, List.append_assoc]
        exact Place.precedes_of_lt here (hname entry hentry) before after
    unfold entryDirectories
    split
    · split
      · exact hrest
      · exact hall
    · exact hrest

end

end FileTree

/-! ## The directories below a project -/

namespace Resolver

variable {disk : Disk} {r : Resolver} {explicit : Option String} {root names : Place}

theorem mem_scannedDirectories_iff (h : disk.tree.NamedOnce) :
    names ∈ scannedDirectories disk root ↔ names ≠ [] ∧
      (∃ entries, disk.tree.at? (root ++ names) = some (.directory entries)) ∧
      ∀ name ∈ names, isSkippedDirectory name = false := by
  unfold scannedDirectories
  rw [FileTree.at?_append]
  cases hroot : disk.tree.at? root with
  | none => simp
  | some tree =>
    have hsearched : [] ++ names ∈ tree.sorted.subdirectories [] ↔ tree.Searched names :=
      (h.at? hroot).ordered_sorted.namedOnce.mem_subdirectories_iff.trans
        FileTree.searched_sorted_iff
    refine hsearched.trans ⟨fun hs => ⟨hs.below, hs.directory, hs.visible⟩, ?_⟩
    rintro ⟨hbelow, hdirectory, hvisible⟩
    exact ⟨hbelow, hdirectory, hvisible⟩

theorem pairwise_scannedDirectories (h : disk.tree.NamedOnce) (root : Place) :
    (scannedDirectories disk root).Pairwise Place.Precedes := by
  unfold scannedDirectories
  split
  · rename_i tree htree
    exact (h.at? htree).ordered_sorted.pairwise_subdirectories
  · exact .nil

/-- A directory below a project, no part of the way to which is passed over, has a configuration
file, under a path that has not been read for the project. -/
structure Counts (r : Resolver) (disk : Disk) (explicit : Option String) (root names : Place) :
    Prop where
  below : names ≠ []
  directory : ∃ entries, disk.tree.at? (root ++ names) = some (.directory entries)
  visible : ∀ name ∈ names, isSkippedDirectory name = false
  found : ∃ path, disk.findDeclarative (root ++ names) = some path ∧
    ¬ r.HasRead disk explicit root path

/-! ## The files that are found -/

/-- A configuration file that is found below a project. -/
structure Found where
  /-- The names that lead to its directory. -/
  names : Place
  /-- Where the file is, links aside. -/
  place : Place
  /-- The presets that it inherits. -/
  presets : List ConfigSource

namespace Found

/-- The pattern of all that is below the directory. -/
def scope (f : Found) : String := escapedDirectory f.names ++ "/**"

/-- The source of the file. -/
def source (f : Found) : ConfigSource := ⟨f.place.toPath, .declarativeFile, some f.scope⟩

/-- All that the file brings in. -/
def sources (f : Found) : List ConfigSource := f.source :: f.presets.map (·.limitedTo f.scope)

/-- The file is that of its directory, and the presets are those that it inherits. -/
def Loads (r : Resolver) (disk : Disk) (root : Place) (f : Found) : Prop :=
  ∃ path config stack, disk.findDeclarative (root ++ f.names) = some path ∧
    disk.locate path = .ok f.place ∧ disk.readConfigAt f.place = .ok config ∧
    PresetStack disk r.presets f.place.parent (config.inherited.getD []) stack ∧
    f.presets = stack.map Prod.fst

theorem Loads.kind_eq {f : Found} (h : f.Loads r disk root) :
    ∀ s ∈ f.presets, s.kind = .preset := by
  obtain ⟨path, config, stack, -, -, -, hstack, hpresets⟩ := h
  rw [hpresets]
  exact List.forall_mem_map.mpr fun entry hentry => (hstack.kind_eq entry hentry).1

end Found

/-- A file that counts for a directory below a project. -/
def isScopedFile (s : ConfigSource) : Bool := s.scope.isSome && s.kind == .declarativeFile

theorem filter_sources {f : Found} (h : ∀ s ∈ f.presets, s.kind = .preset) :
    f.sources.filter isScopedFile = [f.source] := by
  have hsource : isScopedFile f.source = true := rfl
  rw [Found.sources, List.filter_cons_of_pos hsource, List.filter_eq_nil_iff.mpr]
  refine List.forall_mem_map.mpr fun s hs => ?_
  simp [isScopedFile, ConfigSource.limitedTo, h s hs]

theorem filter_flatMap_sources {found : List Found}
    (h : ∀ f ∈ found, ∀ s ∈ f.presets, s.kind = .preset) :
    (found.flatMap Found.sources).filter isScopedFile = found.map Found.source := by
  induction found with
  | nil => rfl
  | cons f rest ih =>
    obtain ⟨hf, hrest⟩ := List.forall_mem_cons.mp h
    rw [List.flatMap_cons, List.filter_append, filter_sources hf, ih hrest, List.map_cons,
      List.singleton_append]

/-- The file of a directory is found, and it has not been read. -/
def isFresh (disk : Disk) (root : Place) (seen : List String) (names : Place) : Bool :=
  (disk.findDeclarative (root ++ names)).any fun path => !seen.contains path

theorem isFresh_iff {seen : List String} : isFresh disk root seen names = true ↔
    ∃ path, disk.findDeclarative (root ++ names) = some path ∧ path ∉ seen := by
  simp [isFresh, Option.any_eq_true]

/-- What a scan brings in, it brings in file by file. -/
theorem exists_found_of_scanBelow {seen : List String} {dirs : List Place} {b b' : Below}
    (h : r.scanBelow disk root seen dirs b = .ok b') :
    ∃ found : List Found, b'.sources = b.sources ++ found.flatMap Found.sources ∧
      found.map Found.names = dirs.filter (isFresh disk root seen) ∧
      ∀ f ∈ found, f.Loads r disk root := by
  replace h := sweep_of_scanBelow h
  induction h with
  | done => exact ⟨[], by simp⟩
  | @pass names rest b b' hread _ ih =>
    have hfresh : ¬ isFresh disk root seen names = true := by
      rw [isFresh_iff]
      rintro ⟨path, hpath, hnew⟩
      exact hnew (hread path hpath)
    rw [List.filter_cons_of_neg hfresh]
    exact ih
  | @next names rest path layer b b' hpath hnew hlayer _ ih =>
    obtain ⟨found, hsources, hnames, hloads⟩ := ih
    obtain ⟨place, stack, hplace, ⟨config, hread, below, hbelow, rfl⟩, hexplains⟩ :=
      load_explained hlayer
    have hfresh : isFresh disk root seen names = true := isFresh_iff.mpr ⟨path, hpath, hnew⟩
    have hadded : (addDirectory names layer b).sources = b.sources ++
        layer.sources.map (·.limitedTo (escapedDirectory names ++ "/**")) := rfl
    refine ⟨⟨names, place, below.map Prod.fst⟩ :: found, ?_, ?_, ?_⟩
    · rw [hsources, hadded, hexplains.sources, List.append_assoc, List.flatMap_cons]
      rfl
    · rw [List.filter_cons_of_pos hfresh, List.map_cons, hnames]
    · refine List.forall_mem_cons.mpr ⟨?_, hloads⟩
      exact ⟨path, config, below, hpath, hplace, hread, hbelow, rfl⟩

/-! ## All sources -/

/-- What is read for the whole project is not limited to a directory. -/
theorem Reads.scope_eq {stack : Stack} (h : r.Reads disk explicit root none stack)
    {s : ConfigSource} (hs : s ∈ stack.map Prod.fst) : s.scope = none := by
  have hblock : ∃ source config base,
      IsBlock disk r.presets source config base stack ∧ source.scope = none := by
    cases h with
    | flag _ hopens =>
      obtain ⟨-, -, place, -, config, -, hblock⟩ := hopens
      exact ⟨_, _, _, hblock, rfl⟩
    | environment _ _ hopens =>
      obtain ⟨-, -, place, -, config, -, hblock⟩ := hopens
      exact ⟨_, _, _, hblock, rfl⟩
    | found _ _ hbrings =>
      obtain ⟨-, -, place, -, config, -, hblock⟩ := hbrings
      exact ⟨_, _, _, hblock, rfl⟩
    | manifest _ _ _ hstack => exact ⟨_, _, _, hstack, rfl⟩
  obtain ⟨source, config, base, hblock, hscope⟩ := hblock
  rcases hblock.mem_sources hs with rfl | ⟨-, hnone⟩
  · exact hscope
  · exact hnone

theorem scope_eq_of_gather (hroot : root.Proper) {g : Gathered}
    (h : r.gather disk root explicit = .ok g) : ∀ s ∈ g.sources, s.scope = none := by
  obtain ⟨hmade, -, -⟩ := gather_consulted hroot h
  intro s hs
  rcases (hmade.mem_iff s).mp hs with ⟨path, -, rfl⟩ | ⟨stack, hreads, hmem⟩
  · rfl
  · exact hreads.scope_eq hmem

/-- The sources of a project come before those of the directories below it. Exactly the directories
whose files count bring in theirs, each one before those in it, and neighbours in the order of their
bytes. A file is followed by its presets, and both are limited to the directory. -/
theorem sources_in_preorder (hscan : r.scan = true) (honce : disk.tree.NamedOnce)
    (hnames : disk.tree.EveryName ProperName) {project : String} {loaded : Loaded}
    (h : r.resolve disk project explicit = .ok loaded) :
    ∃ root unscoped, ∃ found : List Found, projectPlace disk project = .ok root ∧
      loaded.sources = unscoped ++ found.flatMap Found.sources ∧
      (∀ s ∈ unscoped, s.scope = none) ∧
      loaded.sources.filter isScopedFile = found.map Found.source ∧
      (found.map Found.names).Pairwise Place.Precedes ∧ (found.map Found.names).Nodup ∧
      (∀ names, names ∈ found.map Found.names ↔ r.Counts disk explicit root names) ∧
      ∀ f ∈ found, f.Loads r disk root := by
  obtain ⟨root, hroot, g, hg, b, hb, rfl⟩ := resolve_eq_ok_iff.mp h
  rw [below, if_pos hscan] at hb
  have hproper := proper_of_projectPlace_of_names hnames hroot
  obtain ⟨found, hsources, hfound, hloads⟩ := exists_found_of_scanBelow hb
  have hunscoped : ∀ s ∈ g.sources.reverse, s.scope = none := fun s hs =>
    scope_eq_of_gather hproper hg s (List.mem_reverse.mp hs)
  have hall : (Loaded.joined g b).sources = g.sources.reverse ++ found.flatMap Found.sources :=
    congrArg (g.sources.reverse ++ ·) hsources
  have horder : (found.map Found.names).Pairwise Place.Precedes := by
    rw [hfound]
    exact (pairwise_scannedDirectories honce root).filter _
  refine ⟨root, g.sources.reverse, found, hroot, hall, hunscoped, ?_, horder,
    horder.imp Place.Precedes.ne, fun names => ?_, hloads⟩
  · rw [hall, List.filter_append, filter_flatMap_sources fun f hf => (hloads f hf).kind_eq,
      List.filter_eq_nil_iff.mpr, List.nil_append]
    intro s hs
    simp [isScopedFile, hunscoped s hs]
  · obtain ⟨-, hseen, -⟩ := gather_consulted hproper hg
    rw [hfound, List.mem_filter, mem_scannedDirectories_iff honce, isFresh_iff]
    simp only [hseen]
    constructor
    · rintro ⟨⟨hbelow, hdirectory, hvisible⟩, hpath⟩
      exact ⟨hbelow, hdirectory, hvisible, hpath⟩
    · intro hcounts
      exact ⟨⟨hcounts.below, hcounts.directory, hcounts.visible⟩, hcounts.found⟩

/-- A project with two directories that count. The others are passed over, a link, or without a
configuration file. -/
def mixedDirectories : Disk where
  tree := .directory [("p", .directory [
    ("lib", .directory [
      ("sub", .directory [("viola.json", .file (some "\x7b'inherit': ['../base.json']\x7d"))]),
      (".cache", .directory [("viola.json", .file (some "\x7b\x7d"))]),
      ("base.json", .file (some "\x7b\x7d"))]),
    ("linked", .link "lib/sub"),
    ("dist", .directory [("viola.json", .file (some "\x7b\x7d"))]),
    ("Zoo", .directory [("viola.json", .file (some "\x7b\x7d"))]),
    ("viola.json", .file (some "\x7b'root': true\x7d"))])]
  cwd := []

theorem namedOnce_mixedDirectories : mixedDirectories.tree.NamedOnce := by
  simp [mixedDirectories]

theorem everyName_mixedDirectories : mixedDirectories.tree.EveryName ProperName := by decide

theorem sources_in_preorder_mixed_directories :
    ∃ loaded unscoped, ∃ found : List Found, plainResolver.scan = true ∧
      mixedDirectories.tree.NamedOnce ∧ mixedDirectories.tree.EveryName ProperName ∧
      plainResolver.resolve mixedDirectories "/p" none = .ok loaded ∧
      loaded.sources = unscoped ++ found.flatMap Found.sources ∧
      (∀ s ∈ unscoped, s.scope = none) ∧
      found.map Found.source = [⟨"/p/Zoo/viola.json", .declarativeFile, some "Zoo/**"⟩,
        ⟨"/p/lib/sub/viola.json", .declarativeFile, some "lib/sub/**"⟩] ∧
      (found.map Found.names).Pairwise Place.Precedes ∧
      ∀ names, names ∈ found.map Found.names ↔
        plainResolver.Counts mixedDirectories none ["p"] names := by
  have hrun : passes (fun loaded => loaded.sources.filter isScopedFile ==
      [⟨"/p/Zoo/viola.json", .declarativeFile, some "Zoo/**"⟩,
        ⟨"/p/lib/sub/viola.json", .declarativeFile, some "lib/sub/**"⟩])
      (plainResolver.resolve mixedDirectories "/p" none) = true := by decide +kernel
  have hproject : passes (· == ["p"]) (projectPlace mixedDirectories "/p") = true := by
    decide +kernel
  obtain ⟨loaded, hloaded, hscoped⟩ := exists_of_passes hrun
  obtain ⟨root, hroot, hp⟩ := exists_of_passes hproject
  obtain rfl : root = ["p"] := eq_of_beq hp
  obtain ⟨root', unscoped, found, hroot', hsources, hunscoped, hfound, horder, -, hcounts, -⟩ :=
    sources_in_preorder rfl namedOnce_mixedDirectories everyName_mixedDirectories hloaded
  obtain rfl := Except.ok.inj (hroot.symm.trans hroot')
  exact ⟨loaded, unscoped, found, rfl, namedOnce_mixedDirectories, everyName_mixedDirectories,
    hloaded, hsources, hunscoped, hfound.symm.trans (eq_of_beq hscoped), horder, hcounts⟩

/-- A directory with a backslash in its name. -/
def slashedDirectory : Disk where
  tree := .directory [("a\\b", .directory [("viola.json", .file (some "\x7b\x7d"))])]
  cwd := []

/-- A backslash in a path stands for a slash in the pattern, so that the pattern is not always that
of the escaped path. -/
theorem scope_with_backslash :
    slashedDirectory.tree.NamedOnce ∧ slashedDirectory.tree.EveryName ProperName ∧
      slashedDirectory.findDeclarative ["a\\b"] = some "/a\\b/viola.json" ∧
      ∃ loaded, plainResolver.resolve slashedDirectory "/" none = .ok loaded ∧
        loaded.sources = [⟨"/a\\b/viola.json", .declarativeFile, some "a/b/**"⟩] ∧
        globEscape ("/".intercalate ["a\\b"]) ++ "/**" ≠ "a/b/**" := by
  have hrun : passes (fun loaded => loaded.sources ==
      [⟨"/a\\b/viola.json", .declarativeFile, some "a/b/**"⟩])
      (plainResolver.resolve slashedDirectory "/" none) = true := by decide +kernel
  obtain ⟨loaded, hloaded, hsources⟩ := exists_of_passes hrun
  exact ⟨by simp [slashedDirectory], by decide, by decide +kernel, loaded, hloaded,
    eq_of_beq hsources, by decide +kernel⟩

end Resolver

end LintFront
