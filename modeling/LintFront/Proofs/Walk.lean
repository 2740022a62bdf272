import LintFront.Proofs.Places
import LintFront.Proofs.Provenance

/-!
# The search upward

From the directory of a project the search goes upward and brings in the configuration file of each
directory, unless the file has been named outright. It ends where a file says so, alone or by one
of its presets.

* `Resolver.Named`: the files that are named outright.
* `Resolver.Stops`, `Resolver.Reached`: where the search ends, and how far it comes.
* `Walk`: what the search visits and brings in.
* `Resolver.walk_of_walkUp`: the search is such a walk.
* `Walk.mem_visited_iff`: it visits the directories that are reached.
-/

namespace LintFront

/-! ## Directories above one another -/

namespace Place

/-- A directory strictly above another place. -/
def Above (a b : Place) : Prop := a <+: b ∧ a ≠ b

theorem Above.asymm {a b : Place} (h : a.Above b) : ¬ b.Above a :=
  fun h' => h.2 (h.1.eq_of_length_le h'.1.length_le)

theorem Above.length_lt {a b : Place} (h : a.Above b) : a.length < b.length :=
  Nat.lt_of_le_of_ne h.1.length_le fun heq => h.2 (h.1.eq_of_length heq)

theorem mem_ancestors {a place : Place} : a ∈ place.ancestors ↔ a <+: place := by
  rw [ancestors, List.mem_map]
  constructor
  · rintro ⟨k, -, rfl⟩
    exact List.take_prefix _ _
  · intro h
    have hlength := h.length_le
    refine ⟨place.length - a.length, by rw [List.mem_range]; omega, ?_⟩
    rw [show place.length - (place.length - a.length) = a.length by omega]
    exact (List.prefix_iff_eq_take.mp h).symm

theorem pairwise_ancestors (place : Place) :
    place.ancestors.Pairwise fun lower upper => upper.Above lower := by
  rw [ancestors, List.pairwise_map]
  refine List.pairwise_lt_range.imp_of_mem fun {i j} hi hj hij => ?_
  rw [List.mem_range] at hi hj
  refine ⟨List.take_prefix_take_left (by omega), fun heq => ?_⟩
  have hlength := congrArg List.length heq
  rw [List.length_take, List.length_take] at hlength
  omega

end Place

/-! ## Files found and files named -/

theorem Disk.findDeclarative_eq_some {disk : Disk} {dir : Place} {path : String}
    (h : disk.findDeclarative dir = some path) :
    ∃ name ∈ declarativeFiles, path = joinPath dir.toPath name := by
  obtain ⟨name, hname, rfl⟩ := List.mem_map.mp (List.mem_of_find?_eq_some h)
  exact ⟨name, hname, rfl⟩

theorem properName_of_mem_files {name : String}
    (h : name ∈ declarativeFiles ++ manifestFiles ++ moduleFiles) : ProperName name := by
  have hall : ∀ name ∈ declarativeFiles ++ manifestFiles ++ moduleFiles, ProperName name := by
    decide
  exact hall name h

/-- Of the files that are looked for, the modules are told by their extensions. -/
theorem isModulePath_joinPath {dir : Place} (hdir : dir.Proper) {name : String}
    (h : name ∈ declarativeFiles ++ manifestFiles ++ moduleFiles) :
    isModulePath (joinPath dir.toPath name) = decide (name ∈ moduleFiles) := by
  have hall : ∀ name ∈ declarativeFiles ++ manifestFiles ++ moduleFiles,
      ((nameExtension? name.toList).map String.ofList).any (moduleExtensions.contains ·) =
        decide (name ∈ moduleFiles) := by
    decide
  rw [← hall name h, isModulePath, Place.extension?_joinPath hdir (properName_of_mem_files h)]
  cases (nameExtension? name.toList).map String.ofList <;> rfl

/-- A path names a file outright, and the file is no module. -/
def Disk.NamedBy (disk : Disk) (given path : String) : Prop :=
  isModulePath given = false ∧ disk.isFile given = true ∧
    ∃ place, disk.locate given = .ok place ∧ place.toPath = path

namespace Resolver

/-- A path is that of a file named on the command line. -/
def Flagged (disk : Disk) (explicit : Option String) (path : String) : Prop :=
  ∃ given, explicit.map disk.absolute = some given ∧ disk.NamedBy given path

/-- A path is that of a file named on the command line or in the environment. -/
def Named (r : Resolver) (disk : Disk) (explicit : Option String) (path : String) : Prop :=
  Flagged disk explicit path ∨ ∃ given, r.environmentPath disk = some given ∧
    disk.NamedBy given path

/-- What the configuration file of a directory brings in, if it has not been named outright. -/
def Brings (r : Resolver) (disk : Disk) (explicit : Option String) (dir : Place) (path : String)
    (stack : Stack) : Prop :=
  disk.findDeclarative dir = some path ∧ ¬ r.Named disk explicit path ∧
    ∃ place, disk.locate path = .ok place ∧
      IsFileBlock disk r.presets .declarativeFile place stack

/-- The search ends at a directory: its file, or one of the presets of the file, says so, and the
file has not been named outright. -/
def Stops (r : Resolver) (disk : Disk) (explicit : Option String) (dir : Place) : Prop :=
  ∃ path stack, r.Brings disk explicit dir path stack ∧
    (stack.map Prod.snd).findSome? Configuration.root = some true

/-- The search from a project comes as far as a directory: it does not end below it. -/
def Reached (r : Resolver) (disk : Disk) (explicit : Option String) (root dir : Place) : Prop :=
  ∀ lower, lower <+: root → dir.Above lower → ¬ r.Stops disk explicit lower

end Resolver

/-! ## Blocks are determined -/

variable {disk : Disk} {lookup : PresetLookup}

theorem PresetStack.unique {base : Place} {names : List String} {stack stack' : Stack}
    (h : PresetStack disk lookup base names stack)
    (h' : PresetStack disk lookup base names stack') : stack = stack' := by
  induction h generalizing stack' with
  | nil =>
    cases h'
    rfl
  | left hname _ ih =>
    cases h' with
    | left _ hrest => exact ih hrest
    | found hname' =>
      rw [hname] at hname'
      cases hname'
  | found hname hplace hread _ _ ihown ihrest =>
    cases h' with
    | left hname' =>
      rw [hname] at hname'
      cases hname'
    | found hname' hplace' hread' hown hrest =>
      rw [hname] at hname'
      cases hname'
      rw [hplace] at hplace'
      cases hplace'
      rw [hread] at hread'
      cases hread'
      rw [ihown hown, ihrest hrest]

theorem IsBlock.unique {source : ConfigSource} {config : Configuration} {base : Place}
    {stack stack' : Stack} (h : IsBlock disk lookup source config base stack)
    (h' : IsBlock disk lookup source config base stack') : stack = stack' := by
  obtain ⟨below, hbelow, rfl⟩ := h
  obtain ⟨below', hbelow', rfl⟩ := h'
  rw [hbelow.unique hbelow']

theorem IsFileBlock.unique {kind : SourceKind} {place : Place} {stack stack' : Stack}
    (h : IsFileBlock disk lookup kind place stack)
    (h' : IsFileBlock disk lookup kind place stack') : stack = stack' := by
  obtain ⟨config, hread, hblock⟩ := h
  obtain ⟨config', hread', hblock'⟩ := h'
  rw [hread] at hread'
  cases hread'
  exact hblock.unique hblock'

theorem PresetStack.kind_eq {base : Place} {names : List String} {stack : Stack}
    (h : PresetStack disk lookup base names stack) :
    ∀ entry ∈ stack, entry.1.kind = .preset ∧ entry.1.scope = none := by
  induction h with
  | nil => simp
  | left _ _ ih => exact ih
  | found _ _ _ _ _ ihown ihrest =>
    intro entry hentry
    rcases List.mem_cons.mp hentry with rfl | hentry
    · exact ⟨rfl, rfl⟩
    · rcases List.mem_append.mp hentry with hentry | hentry
      · exact ihown entry hentry
      · exact ihrest entry hentry

theorem IsBlock.mem_sources {source s : ConfigSource} {config : Configuration} {base : Place}
    {stack : Stack} (h : IsBlock disk lookup source config base stack)
    (hs : s ∈ stack.map Prod.fst) : s = source ∨ s.kind = .preset ∧ s.scope = none := by
  obtain ⟨below, hbelow, rfl⟩ := h
  obtain ⟨entry, hentry, rfl⟩ := List.mem_map.mp hs
  rcases List.mem_cons.mp hentry with rfl | hentry
  · exact Or.inl rfl
  · exact Or.inr (hbelow.kind_eq entry hentry)

theorem IsBlock.head_mem {source : ConfigSource} {config : Configuration} {base : Place}
    {stack : Stack} (h : IsBlock disk lookup source config base stack) :
    source ∈ stack.map Prod.fst := by
  obtain ⟨below, -, rfl⟩ := h
  exact List.mem_cons_self

namespace Resolver

variable {r : Resolver} {explicit : Option String}

theorem Brings.unique {dir : Place} {path path' : String} {stack stack' : Stack}
    (h : r.Brings disk explicit dir path stack) (h' : r.Brings disk explicit dir path' stack') :
    stack = stack' := by
  obtain ⟨hfind, -, place, hplace, hblock⟩ := h
  obtain ⟨hfind', -, place', hplace', hblock'⟩ := h'
  rw [hfind] at hfind'
  cases hfind'
  rw [hplace] at hplace'
  cases hplace'
  exact hblock.unique hblock'

end Resolver

/-! ## Walks -/

/-- A walk through directories from below upward: those that it visits, where it ends if it does
not visit all of them, and the sources that it brings in. -/
inductive Walk (r : Resolver) (disk : Disk) (explicit : Option String) :
    List Place → List Place → Option Place → List ConfigSource → Prop
  | done : Walk r disk explicit [] [] none []
  | pass {dir : Place} {above visited : List Place} {boundary : Option Place}
      {sources : List ConfigSource}
      (hnamed : ∀ path, disk.findDeclarative dir = some path → r.Named disk explicit path)
      (hrest : Walk r disk explicit above visited boundary sources) :
      Walk r disk explicit (dir :: above) (dir :: visited) boundary sources
  | stop {dir : Place} {above : List Place} {path : String} {stack : Stack}
      (hbrings : r.Brings disk explicit dir path stack)
      (hroot : (stack.map Prod.snd).findSome? Configuration.root = some true) :
      Walk r disk explicit (dir :: above) [dir] (some dir) (stack.map Prod.fst)
  | next {dir : Place} {above visited : List Place} {boundary : Option Place}
      {sources : List ConfigSource} {path : String} {stack : Stack}
      (hbrings : r.Brings disk explicit dir path stack)
      (hroot : (stack.map Prod.snd).findSome? Configuration.root ≠ some true)
      (hrest : Walk r disk explicit above visited boundary sources) :
      Walk r disk explicit (dir :: above) (dir :: visited) boundary
        (stack.map Prod.fst ++ sources)

variable {r : Resolver} {explicit : Option String}

/-- The paths of files in different directories differ. -/
theorem findDeclarative_inj {a b : Place} (ha : a.Proper) (hb : b.Proper) {path : String}
    (hfa : disk.findDeclarative a = some path) (hfb : disk.findDeclarative b = some path) :
    a = b := by
  obtain ⟨name, hname, rfl⟩ := Disk.findDeclarative_eq_some hfa
  obtain ⟨name', hname', heq⟩ := Disk.findDeclarative_eq_some hfb
  have hproper : ProperName name := properName_of_mem_files (by simp [hname])
  have hproper' : ProperName name' := properName_of_mem_files (by simp [hname'])
  exact (Place.joinPath_toPath_inj ha hb hproper hproper' heq).1

/-- The search is a walk, as long as the files that have been read are just those named outright
and those of directories further below. It reads the files of the directories that it visits. -/
theorem Resolver.walk_of_walkUp {dirs : List Place} {g g' : Gathered} {boundary : Option Place}
    (hdirs : dirs.Nodup) (hproper : ∀ dir ∈ dirs, dir.Proper)
    (hseen : ∀ dir ∈ dirs, ∀ path, disk.findDeclarative dir = some path →
      (path ∈ g.seen ↔ r.Named disk explicit path))
    (h : r.walkUp disk dirs g = .ok (g', boundary)) :
    ∃ visited sources, g'.sources = g.sources ++ sources ∧ g'.moduleFile = g.moduleFile ∧
      (∀ path, path ∈ g'.seen ↔
        path ∈ g.seen ∨ ∃ dir ∈ visited, disk.findDeclarative dir = some path) ∧
      Walk r disk explicit dirs visited boundary sources := by
  induction dirs generalizing g with
  | nil =>
    rw [walkUp_nil] at h
    cases h
    exact ⟨[], [], (List.append_nil _).symm, rfl, by simp, .done⟩
  | cons dir above ih =>
    obtain ⟨hdir, habove⟩ := List.nodup_cons.mp hdirs
    have hproper' : ∀ d ∈ above, d.Proper := fun d hd => hproper d (List.mem_cons_of_mem _ hd)
    have hseen' : ∀ d ∈ above, ∀ path, disk.findDeclarative d = some path →
        (path ∈ g.seen ↔ r.Named disk explicit path) :=
      fun d hd => hseen d (List.mem_cons_of_mem _ hd)
    have hdirseen := hseen dir List.mem_cons_self
    rw [walkUp_cons] at h
    split at h
    · rename_i hnone
      obtain ⟨visited, sources, hsources, hmodule, hread, hwalk⟩ := ih habove hproper' hseen' h
      exact ⟨dir :: visited, sources, hsources, hmodule, by simpa [hnone] using hread,
        .pass (by simp [hnone]) hwalk⟩
    · rename_i path hpath
      split at h
      · rename_i hold
        have hold' : path ∈ g.seen := by simpa using hold
        obtain ⟨visited, sources, hsources, hmodule, hread, hwalk⟩ := ih habove hproper' hseen' h
        refine ⟨dir :: visited, sources, hsources, hmodule, fun p => ?_,
          .pass (fun p hp => ?_) hwalk⟩
        · simp only [hread, List.mem_cons, or_and_right, exists_or, exists_eq_left, hpath,
            Option.some.injEq, ← or_assoc]
          exact or_congr_left (or_iff_left_of_imp fun heq => heq ▸ hold').symm
        · rw [hpath] at hp
          cases hp
          exact (hdirseen path hpath).mp hold'
      · rename_i hunread
        split at h
        · cases h
        · rename_i layer hlayer
          obtain ⟨place, stack, hplace, hblock, hexplains⟩ := load_explained hlayer
          have hbrings : r.Brings disk explicit dir path stack :=
            ⟨hpath, fun hnamed => hunread (by simpa using (hdirseen path hpath).mpr hnamed),
              place, hplace, hblock⟩
          have hadded : ((g.add layer).see path).sources = g.sources ++ stack.map Prod.fst := by
            rw [← hexplains.sources]
            rfl
          have hnow : ∀ p, p ∈ ((g.add layer).see path).seen ↔ p ∈ g.seen ∨ path = p := by
            simp [Gathered.see, Gathered.add, eq_comm]
          split at h
          · rename_i hroot
            cases h
            rw [hexplains.root] at hroot
            exact ⟨[dir], stack.map Prod.fst, hadded, rfl, by simpa [hpath] using hnow,
              .stop hbrings hroot⟩
          · rename_i hroot
            rw [hexplains.root] at hroot
            have hseenAbove : ∀ d ∈ above, ∀ p, disk.findDeclarative d = some p →
                (p ∈ ((g.add layer).see path).seen ↔ r.Named disk explicit p) := by
              intro d hd p hp
              have hne : path ≠ p := by
                rintro rfl
                exact hdir (findDeclarative_inj (hproper' d hd)
                  (hproper dir List.mem_cons_self) hp hpath ▸ hd)
              rw [← hseen' d hd p hp, hnow, or_iff_left hne]
            obtain ⟨visited, sources, hsources, hmodule, hread, hwalk⟩ :=
              ih habove hproper' hseenAbove h
            refine ⟨dir :: visited, _, ?_, hmodule, fun p => ?_, .next hbrings hroot hwalk⟩
            · rw [hsources, hadded, List.append_assoc]
            · simp only [hread, hnow, List.mem_cons, or_and_right, exists_or, exists_eq_left,
                hpath, Option.some.injEq, or_assoc]

namespace Walk

variable {dirs visited : List Place} {boundary : Option Place} {sources : List ConfigSource}

theorem isPrefix_visited (h : Walk r disk explicit dirs visited boundary sources) :
    visited <+: dirs := by
  induction h with
  | done => exact List.nil_prefix
  | pass _ _ ih => exact List.cons_prefix_cons.mpr ⟨rfl, ih⟩
  | stop => exact List.cons_prefix_cons.mpr ⟨rfl, List.nil_prefix⟩
  | next _ _ _ ih => exact List.cons_prefix_cons.mpr ⟨rfl, ih⟩

/-- A walk visits the directories below which it does not end. -/
theorem mem_visited_iff (h : Walk r disk explicit dirs visited boundary sources)
    (hdirs : dirs.Pairwise fun lower upper => upper.Above lower) {dir : Place}
    (hdir : dir ∈ dirs) :
    dir ∈ visited ↔ ∀ lower ∈ dirs, dir.Above lower → ¬ r.Stops disk explicit lower := by
  -- The first directory is visited whatever comes, and nothing lies below it.
  have hfirst : ∀ {first : Place} {above : List Place},
      (∀ upper ∈ above, upper.Above first) →
        ∀ lower ∈ first :: above, first.Above lower → ¬ r.Stops disk explicit lower := by
    intro first above habove lower hlower hbelow
    rcases List.mem_cons.mp hlower with rfl | hlower
    · exact absurd rfl hbelow.2
    · exact absurd hbelow (habove lower hlower).asymm
  -- Behind a directory where the walk goes on, the rest of the walk decides.
  have hgoes : ∀ {first : Place} {above visited' : List Place},
      (∀ upper ∈ above, upper.Above first) → ¬ r.Stops disk explicit first → dir ∈ above →
        (dir ∈ visited' ↔ ∀ lower ∈ above, dir.Above lower → ¬ r.Stops disk explicit lower) →
        (dir ∈ first :: visited' ↔
          ∀ lower ∈ first :: above, dir.Above lower → ¬ r.Stops disk explicit lower) := by
    intro first above visited' habove hstops hmem ih
    have hne : dir ≠ first := (habove dir hmem).2
    rw [List.mem_cons, or_iff_right hne, ih, List.forall_mem_cons]
    exact ⟨fun hall => ⟨fun _ => hstops, hall⟩, fun hall => hall.2⟩
  induction h with
  | done => cases hdir
  | pass hnamed _ ih =>
    obtain ⟨habove, hrest⟩ := List.pairwise_cons.mp hdirs
    rcases List.mem_cons.mp hdir with rfl | hmem
    · exact iff_of_true List.mem_cons_self (hfirst habove)
    · refine hgoes habove ?_ hmem (ih hrest hmem)
      rintro ⟨path, stack, ⟨hpath, hunnamed, -⟩, -⟩
      exact hunnamed (hnamed path hpath)
  | @stop first above path stack hbrings hroot =>
    obtain ⟨habove, -⟩ := List.pairwise_cons.mp hdirs
    rcases List.mem_cons.mp hdir with rfl | hmem
    · exact iff_of_true List.mem_cons_self (hfirst habove)
    · refine iff_of_false ?_ fun hall => ?_
      · rw [List.mem_singleton]
        exact (habove dir hmem).2
      · exact hall first List.mem_cons_self (habove dir hmem) ⟨path, stack, hbrings, hroot⟩
  | next hbrings hroot _ ih =>
    obtain ⟨habove, hrest⟩ := List.pairwise_cons.mp hdirs
    rcases List.mem_cons.mp hdir with rfl | hmem
    · exact iff_of_true List.mem_cons_self (hfirst habove)
    · refine hgoes habove ?_ hmem (ih hrest hmem)
      rintro ⟨path', stack', hbrings', hroot'⟩
      rw [← hbrings.unique hbrings'] at hroot'
      exact hroot hroot'

/-- The search upward from a directory visits the directories above it that are reached. -/
theorem mem_visited_iff_reached {root : Place}
    (h : Walk r disk explicit root.ancestors visited boundary sources) {dir : Place} :
    dir ∈ visited ↔ dir <+: root ∧ r.Reached disk explicit root dir := by
  have hpairs := Place.pairwise_ancestors root
  simp only [Resolver.Reached, ← Place.mem_ancestors]
  constructor
  · intro hdir
    have hupper := h.isPrefix_visited.subset hdir
    exact ⟨hupper, (h.mem_visited_iff hpairs hupper).mp hdir⟩
  · rintro ⟨hupper, hreached⟩
    exact (h.mem_visited_iff hpairs hupper).mpr hreached

/-- A walk brings in what the visited directories bring in. -/
theorem mem_sources_iff (h : Walk r disk explicit dirs visited boundary sources)
    {s : ConfigSource} :
    s ∈ sources ↔ ∃ stack, (∃ dir ∈ visited, ∃ path, r.Brings disk explicit dir path stack) ∧
      s ∈ stack.map Prod.fst := by
  have hown : ∀ {dir : Place} {path : String} {stack stack' : Stack},
      r.Brings disk explicit dir path stack →
        ((∃ path, r.Brings disk explicit dir path stack') ↔ stack' = stack) := by
    intro dir path stack stack' hbrings
    constructor
    · rintro ⟨path', hbrings'⟩
      exact hbrings'.unique hbrings
    · rintro rfl
      exact ⟨path, hbrings⟩
  induction h with
  | done => simp
  | pass hnamed _ ih =>
    simp only [List.mem_cons, or_and_right, exists_or, exists_eq_left, ← ih]
    refine (or_iff_right ?_).symm
    rintro ⟨stack, ⟨path, ⟨hpath, hunnamed, -⟩⟩, -⟩
    exact hunnamed (hnamed path hpath)
  | stop hbrings => simp only [List.mem_singleton, exists_eq_left, hown hbrings]
  | next hbrings _ _ ih =>
    simp only [List.mem_cons, or_and_right, exists_or, exists_eq_left, hown hbrings, ← ih,
      List.mem_append]

/-- A visited directory brings in its file, unless the file has been named outright. -/
theorem exists_brings (h : Walk r disk explicit dirs visited boundary sources) {dir : Place}
    (hdir : dir ∈ visited) {path : String} (hpath : disk.findDeclarative dir = some path)
    (hunnamed : ¬ r.Named disk explicit path) : ∃ stack, r.Brings disk explicit dir path stack := by
  have hown : ∀ {path' : String} {stack : Stack}, r.Brings disk explicit dir path' stack →
      ∃ stack, r.Brings disk explicit dir path stack := by
    intro path' stack hbrings
    have hpath' := hbrings.1
    rw [hpath] at hpath'
    cases hpath'
    exact ⟨stack, hbrings⟩
  induction h with
  | done => cases hdir
  | pass hnamed _ ih =>
    rcases List.mem_cons.mp hdir with rfl | hmem
    · exact absurd (hnamed path hpath) hunnamed
    · exact ih hmem
  | stop hbrings =>
    rw [List.mem_singleton] at hdir
    subst hdir
    exact hown hbrings
  | next hbrings _ _ ih =>
    rcases List.mem_cons.mp hdir with rfl | hmem
    · exact hown hbrings
    · exact ih hmem

end Walk

end LintFront
