import LintFront.Config.Search
import LintFront.Proofs.Table

/-!
# Places and their paths

Where no links are, a place is found again by its path, and different places have different paths.

* `ProperName`, `Place.Proper`: names that a directory can have for its entries.
* `Place.toPath_inj`: a place is given by its path.
* `Disk.NoLinks`: a tree without links.
* `Disk.proper_of_locate`: paths lead to proper places.
* `Disk.locate_toPath`: the path of a place leads there, if it leads anywhere.
-/

namespace LintFront

/-- A name that an entry of a directory can have. -/
structure ProperName (name : String) : Prop where
  nonempty : name ≠ ""
  dot : name ≠ "."
  dots : name ≠ ".."
  slash : '/' ∉ name.toList
  zero : '\x00' ∉ name.toList

instance (name : String) : Decidable (ProperName name) :=
  decidable_of_iff (name ≠ "" ∧ name ≠ "." ∧ name ≠ ".." ∧ '/' ∉ name.toList ∧
      '\x00' ∉ name.toList)
    ⟨fun ⟨hnonempty, hdot, hdots, hslash, hzero⟩ => ⟨hnonempty, hdot, hdots, hslash, hzero⟩,
      fun h => ⟨h.nonempty, h.dot, h.dots, h.slash, h.zero⟩⟩

def Place.Proper (place : Place) : Prop := ∀ name ∈ place, ProperName name

/-! ## Segments -/

theorem segments_of_not_mem {separator : Char} {cs : List Char} (h : separator ∉ cs) :
    segments separator cs = [cs] := by
  induction cs with
  | nil => rfl
  | cons c rest ih =>
    have hc : c ≠ separator := fun e => h (e ▸ List.mem_cons_self)
    have hrest : separator ∉ rest := fun hmem => h (List.mem_cons_of_mem _ hmem)
    rw [segments, if_neg hc, ih hrest]

theorem mem_segments {separator : Char} {cs part : List Char} (h : part ∈ segments separator cs) :
    separator ∉ part ∧ ∀ c ∈ part, c ∈ cs := by
  induction cs generalizing part with
  | nil =>
    obtain rfl : part = [] := by simpa [segments] using h
    simp
  | cons c rest ih =>
    rw [segments] at h
    split at h
    · rcases List.mem_cons.mp h with rfl | h
      · simp
      · obtain ⟨hpart, hmem⟩ := ih h
        exact ⟨hpart, fun x hx => List.mem_cons_of_mem _ (hmem x hx)⟩
    · rename_i hc
      have hne : separator ≠ c := fun e => hc e.symm
      split at h
      · rename_i hnil
        exact absurd hnil (segments_ne_nil separator rest)
      · rename_i first others hfirst
        rcases List.mem_cons.mp h with rfl | h
        · have hmem : first ∈ segments separator rest := by
            rw [hfirst]
            exact List.mem_cons_self
          obtain ⟨hpart, hmem⟩ := ih hmem
          refine ⟨by simp [hne, hpart], fun x hx => ?_⟩
          rcases List.mem_cons.mp hx with rfl | hx
          · exact List.mem_cons_self
          · exact List.mem_cons_of_mem _ (hmem x hx)
        · have hmem : part ∈ segments separator rest := by
            rw [hfirst]
            exact List.mem_cons_of_mem _ h
          obtain ⟨hpart, hmem⟩ := ih hmem
          exact ⟨hpart, fun x hx => List.mem_cons_of_mem _ (hmem x hx)⟩

theorem segmentsOf_ne_nil (text : String) : segmentsOf text ≠ [] := by
  rw [segmentsOf, ne_eq, List.map_eq_nil_iff]
  exact segments_ne_nil _ _

theorem segmentsOf_of_not_mem {text : String} (h : '/' ∉ text.toList) :
    segmentsOf text = [text] := by
  rw [segmentsOf, segments_of_not_mem h]
  simp

theorem segmentsOf_append (s t : String) :
    segmentsOf (s ++ "/" ++ t) = segmentsOf s ++ segmentsOf t := by
  have hslash : ("/" : String).toList = ['/'] := rfl
  simp only [segmentsOf, String.toList_append, hslash, List.append_assoc, List.singleton_append,
    segments_append, List.map_append]

/-! ## Paths of places -/

theorem ProperName.not_isAbsolute {name : String} (h : ProperName name) :
    isAbsolute name = false := by
  unfold isAbsolute
  cases hchars : name.toList with
  | nil => simp
  | cons c rest =>
    have hc : c ≠ '/' := fun e => h.slash (by rw [hchars, e]; exact List.mem_cons_self)
    simp [hc]

namespace Place

/-- Names of places have no slashes. -/
theorem Proper.not_mem_slash {place : Place} (h : place.Proper) :
    ∀ name ∈ place, '/' ∉ name.toList := fun name hname => (h name hname).slash

theorem segmentsOf_intercalate {place : Place} (h : ∀ name ∈ place, '/' ∉ name.toList)
    (hne : place ≠ []) : segmentsOf ("/".intercalate place) = place := by
  induction place with
  | nil => exact absurd rfl hne
  | cons name rest ih =>
    have hname := segmentsOf_of_not_mem (h name List.mem_cons_self)
    cases rest with
    | nil => rw [String.intercalate_singleton, hname]
    | cons next rest =>
      have hrest := ih (fun n hn => h n (List.mem_cons_of_mem _ hn)) (List.cons_ne_nil _ _)
      rw [String.intercalate_cons_cons, segmentsOf_append, hname, hrest]
      rfl

theorem segmentsOf_toPath {place : Place} (h : ∀ name ∈ place, '/' ∉ name.toList)
    (hne : place ≠ []) : segmentsOf place.toPath = "" :: place := by
  have hsplit := segmentsOf_append "" ("/".intercalate place)
  rw [segmentsOf_intercalate h hne] at hsplit
  have hempty : segmentsOf "" = [""] := by decide
  rw [hempty, String.empty_append] at hsplit
  exact hsplit

/-- A proper place is given by its path. -/
theorem toPath_inj {a b : Place} (ha : a.Proper) (hb : b.Proper) (h : a.toPath = b.toPath) :
    a = b := by
  have hroot : segmentsOf (toPath []) = ["", ""] := by decide
  have hne : ∀ c : Place, c.Proper → c ≠ [""] := by
    rintro c hc rfl
    exact (hc "" List.mem_cons_self).nonempty rfl
  by_cases hanil : a = []
  · by_cases hbnil : b = []
    · rw [hanil, hbnil]
    · have hsegments := segmentsOf_toPath hb.not_mem_slash hbnil
      rw [← h, hanil, hroot] at hsegments
      exact absurd (List.cons.inj hsegments).2.symm (hne b hb)
  · by_cases hbnil : b = []
    · have hsegments := segmentsOf_toPath ha.not_mem_slash hanil
      rw [h, hbnil, hroot] at hsegments
      exact absurd (List.cons.inj hsegments).2.symm (hne a ha)
    · have hsegments := segmentsOf_toPath ha.not_mem_slash hanil
      rw [h, segmentsOf_toPath hb.not_mem_slash hbnil] at hsegments
      exact (List.cons.inj hsegments).2.symm

theorem Proper.append {a b : Place} (ha : a.Proper) (hb : b.Proper) : Place.Proper (a ++ b) := by
  intro name hname
  rcases List.mem_append.mp hname with hname | hname
  · exact ha name hname
  · exact hb name hname

theorem Proper.mono {a b : Place} (hb : b.Proper) (h : a <+: b) : a.Proper :=
  fun name hname => hb name (h.subset hname)

theorem proper_singleton {name : String} (h : ProperName name) : Place.Proper [name] := by
  intro n hn
  rwa [List.mem_singleton.mp hn]

theorem toPath_concat (dir : Place) (name : String) :
    Place.toPath (dir ++ [name]) = (if dir = [] then "/" else dir.toPath ++ "/") ++ name := by
  by_cases hne : dir = []
  · subst hne
    simp [toPath]
  · rw [if_neg hne, toPath, toPath, String.intercalate_append_of_ne_nil hne (by simp),
      String.intercalate_singleton]
    simp [String.append_assoc]

theorem getLast?_toPath {place : Place} (h : place.Proper) (hne : place ≠ []) :
    place.toPath.toList.getLast?.getD '/' ≠ '/' := by
  obtain ⟨dir, name, rfl⟩ : ∃ dir name, place = dir ++ [name] :=
    ⟨_, _, (List.dropLast_concat_getLast hne).symm⟩
  have hname := h name (by simp)
  have hchars : name.toList ≠ [] := by simpa using hname.nonempty
  rw [toPath_concat, String.toList_append, List.getLast?_append,
    List.getLast?_eq_some_getLast hchars, Option.some_or, Option.getD_some]
  intro hslash
  exact hname.slash (hslash ▸ List.getLast_mem hchars)

theorem isAbsolute_toPath (place : Place) : isAbsolute place.toPath = true := by
  simp [isAbsolute, toPath]

/-- A path inside a directory is the path of the place in it. -/
theorem joinPath_toPath {dir : Place} (h : dir.Proper) {name : String} (hname : ProperName name) :
    joinPath dir.toPath name = Place.toPath (dir ++ [name]) := by
  rw [joinPath, hname.not_isAbsolute, if_neg (by simp)]
  rw [toPath_concat]
  by_cases hne : dir = []
  · subst hne
    rfl
  · rw [if_neg (getLast?_toPath h hne), if_neg hne]

theorem joinPath_toPath_inj {a b : Place} (ha : a.Proper) (hb : b.Proper) {name name' : String}
    (hname : ProperName name) (hname' : ProperName name')
    (h : joinPath a.toPath name = joinPath b.toPath name') : a = b ∧ name = name' := by
  rw [joinPath_toPath ha hname, joinPath_toPath hb hname'] at h
  have happend := toPath_inj (ha.append (proper_singleton hname))
    (hb.append (proper_singleton hname')) h
  obtain ⟨hdir, hlast⟩ := List.append_inj' happend rfl
  exact ⟨hdir, List.head_eq_of_cons_eq hlast⟩

/-- The parts of a path of names that count are those names. -/
theorem pathParts_toPath {place : Place} (hslash : ∀ name ∈ place, '/' ∉ name.toList)
    (hidle : ∀ name ∈ place, isIdle name = false) : pathParts place.toPath = "/" :: place := by
  by_cases hne : place = []
  · subst hne
    decide
  · have hkept : place.filter (fun part => !isIdle part) = place :=
      List.filter_eq_self.mpr fun part hpart => by simp [hidle part hpart]
    rw [pathParts, segmentsOf_toPath hslash hne, isAbsolute_toPath, if_pos rfl,
      List.filter_cons_of_neg (by decide), hkept]

theorem Proper.isIdle_eq_false {place : Place} (h : place.Proper) :
    ∀ name ∈ place, isIdle name = false := by
  intro name hname
  simp [isIdle, (h name hname).nonempty, (h name hname).dot]

/-- The name of what a path leads to is the last name of its place. -/
theorem fileName?_toPath {dir : Place} (h : dir.Proper) {name : String} (hname : ProperName name) :
    fileName? (Place.toPath (dir ++ [name])) = some name := by
  have hproper : (dir ++ [name]).Proper := h.append (proper_singleton hname)
  have hparts := pathParts_toPath hproper.not_mem_slash hproper.isIdle_eq_false
  have hslash : name ≠ "/" := by
    rintro rfl
    exact hname.slash (by decide)
  rw [fileName?, hparts, List.getLast?_cons, List.getLast?_append]
  simp [hslash, hname.dot, hname.dots]

theorem extension?_joinPath {dir : Place} (h : dir.Proper) {name : String}
    (hname : ProperName name) :
    extension? (joinPath dir.toPath name) = (nameExtension? name.toList).map String.ofList := by
  rw [joinPath_toPath h hname, extension?, fileName?_toPath h hname, Option.bind_some]

end Place

/-! ## Trees without links -/

theorem FileTree.at?_append (tree : FileTree) (a b : Place) :
    tree.at? (a ++ b) = (tree.at? a).bind (·.at? b) := by
  induction a generalizing tree with
  | nil => simp [FileTree.at?]
  | cons name rest ih =>
    cases tree with
    | directory entries =>
      simp only [List.cons_append, FileTree.at?]
      cases List.lookup name entries with
      | none => rfl
      | some inner => exact ih inner
    | file text => rfl
    | link target => rfl

theorem FileTree.at?_concat {tree inner : FileTree} {here : Place} {name : String}
    {entries : List (String × FileTree)} (hhere : tree.at? here = some (.directory entries))
    (hname : List.lookup name entries = some inner) : tree.at? (here ++ [name]) = some inner := by
  rw [FileTree.at?_append, hhere]
  simp [FileTree.at?, hname]

/-- Nothing in a tree is a symbolic link. -/
def FileTree.NoLinks (tree : FileTree) : Prop :=
  ∀ place target, tree.at? place ≠ some (.link target)

theorem FileTree.noLinks_file (text : Option String) : (FileTree.file text).NoLinks := by
  intro place target
  cases place <;> simp [FileTree.at?]

theorem FileTree.noLinks_directory {entries : List (String × FileTree)}
    (h : ∀ entry ∈ entries, entry.2.NoLinks) : (FileTree.directory entries).NoLinks := by
  intro place target
  cases place with
  | nil => simp [FileTree.at?]
  | cons name rest =>
    rw [FileTree.at?]
    split
    · rename_i inner hinner
      exact h _ (Table.mem_of_find? hinner) rest target
    · simp

namespace Disk

/-- Nothing on a disk is a symbolic link. -/
def NoLinks (disk : Disk) : Prop := disk.tree.NoLinks

variable {disk : Disk}

/-- Without links, a path that can be followed is followed to its end. What it leads to is proper
if its parts have no characters that are not part of names. -/
theorem proper_of_advance (hlinks : disk.NoLinks) {parts : List String} {here : Place}
    {progress : FileTree.Progress} (h : disk.tree.advance here parts = .ok progress)
    (hhere : here.Proper)
    (hparts : ∀ part ∈ parts, '/' ∉ part.toList ∧ '\x00' ∉ part.toList) :
    ∃ place : Place, progress = .arrived place ∧ place.Proper := by
  induction parts generalizing here with
  | nil =>
    cases h
    exact ⟨here, rfl, hhere⟩
  | cons part rest ih =>
    have hrest : ∀ p ∈ rest, '/' ∉ p.toList ∧ '\x00' ∉ p.toList :=
      fun p hp => hparts p (List.mem_cons_of_mem _ hp)
    rw [FileTree.advance] at h
    split at h
    · rename_i entries hdir
      split at h
      · exact ih h hhere hrest
      · rename_i hidle
        simp only [isIdle, Bool.or_eq_true, decide_eq_true_eq, not_or] at hidle
        split at h
        · exact ih h (hhere.mono (List.dropLast_prefix here)) hrest
        · rename_i hdots
          split at h
          · cases h
          · split at h
            · cases h
            · rename_i hlink
              exact absurd (FileTree.at?_concat hdir hlink) (hlinks _ _)
            · obtain ⟨hslash, hzero⟩ := hparts part List.mem_cons_self
              refine ih h (hhere.append (Place.proper_singleton ?_)) hrest
              exact ⟨hidle.1, hidle.2, hdots, hslash, hzero⟩
    · cases h
    · cases h

/-- Proper names lead straight down. -/
theorem eq_append_of_advance {parts : List String} {here place : Place}
    (h : disk.tree.advance here parts = .ok (.arrived place))
    (hparts : ∀ part ∈ parts, ProperName part) : place = here ++ parts := by
  induction parts generalizing here with
  | nil =>
    cases h
    exact (List.append_nil _).symm
  | cons part rest ih =>
    have hpart := hparts part List.mem_cons_self
    have hidle : isIdle part = false := by simp [isIdle, hpart.nonempty, hpart.dot]
    rw [FileTree.advance] at h
    split at h
    · rw [if_neg (by simp [hidle]), if_neg hpart.dots] at h
      split at h
      · cases h
      · split at h
        · cases h
        · cases h
        · rw [ih h fun p hp => hparts p (List.mem_cons_of_mem _ hp), List.append_assoc,
            List.singleton_append]
    · cases h
    · cases h

theorem advance_of_follow (hlinks : disk.NoLinks) {parts : List String} {here place : Place}
    (hhere : here.Proper) (hparts : ∀ part ∈ parts, '/' ∉ part.toList ∧ '\x00' ∉ part.toList)
    {links : Nat} (h : disk.tree.follow here parts links = .ok place) :
    disk.tree.advance here parts = .ok (.arrived place) := by
  cases links <;> rw [FileTree.follow] at h <;> split at h <;> rename_i hadvance
  · cases h
    exact hadvance
  · cases h
  · cases h
  · cases h
    exact hadvance
  · obtain ⟨_, hlinked, -⟩ := proper_of_advance hlinks hadvance hhere hparts
    cases hlinked
  · cases h

theorem advance_of_locate (hlinks : disk.NoLinks) (hcwd : disk.cwd.Proper) {path : String}
    {place : Place} (h : disk.locate path = .ok place) :
    disk.tree.advance (if isAbsolute path then [] else disk.cwd) (segmentsOf path) =
        .ok (.arrived place) ∧ place.Proper := by
  unfold locate at h
  split at h
  · cases h
  · split at h
    · cases h
    · rename_i hzero
      have hstart : Place.Proper (if isAbsolute path then [] else disk.cwd) := by
        split
        · exact fun name hname => absurd hname List.not_mem_nil
        · exact hcwd
      have hparts : ∀ part ∈ segmentsOf path, '/' ∉ part.toList ∧ '\x00' ∉ part.toList := by
        intro part hpart
        obtain ⟨chars, hchars, rfl⟩ := List.mem_map.mp hpart
        obtain ⟨hslash, hmem⟩ := mem_segments hchars
        rw [String.toList_ofList]
        exact ⟨hslash, fun hmem' => hzero (by simpa using hmem _ hmem')⟩
      have hadvance := advance_of_follow hlinks hstart hparts h
      obtain ⟨_, heq, hproper⟩ := proper_of_advance hlinks hadvance hstart hparts
      cases heq
      exact ⟨hadvance, hproper⟩

theorem proper_of_locate (hlinks : disk.NoLinks) (hcwd : disk.cwd.Proper) {path : String}
    {place : Place} (h : disk.locate path = .ok place) : place.Proper :=
  (advance_of_locate hlinks hcwd h).2

/-- The path of a place leads there, if it leads anywhere. -/
theorem locate_toPath (hlinks : disk.NoLinks) (hcwd : disk.cwd.Proper) {place found : Place}
    (hproper : place.Proper) (hne : place ≠ []) (h : disk.locate place.toPath = .ok found) :
    found = place := by
  obtain ⟨hadvance, -⟩ := advance_of_locate hlinks hcwd h
  rw [if_pos (Place.isAbsolute_toPath place), Place.segmentsOf_toPath hproper.not_mem_slash hne,
    FileTree.advance] at hadvance
  split at hadvance
  · rw [if_pos (by decide)] at hadvance
    exact eq_append_of_advance hadvance hproper
  · cases hadvance
  · cases hadvance

end Disk

end LintFront
