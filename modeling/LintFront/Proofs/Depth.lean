import LintFront.Proofs.Preorder
import LintFront.Proofs.Rerooted

/-!
# Deeper directories

The files of the directories below a project come in one after the other, each directory before
those in it. At a pattern that two of them have, the deeper one goes first. But the pattern stays
where the first one put it, so that other patterns of the shallower file, as specific as that of the
deeper directory, may go before it.

* `Resolver.Scan`: the settings of a project, and the files found below it.
* `Resolver.Share`: a place of one of them.
* `Resolver.shallower_decides_nothing_iff`: when a deeper file is safe from a shallower one.
* `Resolver.shallower_wins_tie`: a file that is not.
-/

namespace LintFront

open scoped List

namespace Resolver

/-! ## Files below a project -/

/-- The configuration that a directory below a project has, with its presets merged below it. -/
structure FileBelow where
  directory : Place
  config : Configuration

/-- The scopes that some files bring in, of which the last one stands first. -/
def scopesOf : List FileBelow → Table ScopeOverride
  | [] => []
  | f :: earlier => bringIn f.directory f.config (scopesOf earlier)

/-- The patterns of these scopes as they are listed. -/
def patternsOf : List FileBelow → List String
  | [] => []
  | f :: earlier => union (patternsOf earlier) ((patternsInside f.config).map (inside f.directory))

/-- The file with a number, where the first one has the number one. -/
def fileAt : List FileBelow → Nat → Option FileBelow
  | [], _ => none
  | f :: earlier, n => if n = earlier.length + 1 then some f else fileAt earlier n

/-- The files with another configuration in the one with a number. -/
def changeAt (change : Configuration → Configuration) : List FileBelow → Nat → List FileBelow
  | [], _ => []
  | f :: earlier, n =>
    if n = earlier.length + 1 then { f with config := change f.config } :: earlier
    else f :: changeAt change earlier n

section

variable {files earlier : List FileBelow} {f : FileBelow} {n : Nat}
  {change : Configuration → Configuration}

theorem names_scopesOf (files : List FileBelow) :
    Table.names (scopesOf files) = patternsOf files := by
  induction files with
  | nil => rfl
  | cons f earlier ih => rw [scopesOf, names_bringIn, ih, patternsOf]

theorem sound_scopesOf (h : ∀ f ∈ files, f.config.WellFormed) : Sound (scopesOf files) := by
  induction files with
  | nil => exact sound_nil
  | cons f earlier ih =>
    obtain ⟨hf, hearlier⟩ := List.forall_mem_cons.mp h
    exact .bringIn hf (ih hearlier) f.directory

theorem bounds_of_fileAt (h : fileAt files n = some f) : 0 < n ∧ n ≤ files.length := by
  induction files with
  | nil => cases h
  | cons g earlier ih =>
    rw [fileAt] at h
    rw [List.length_cons]
    split at h
    · omega
    · obtain ⟨hpos, hle⟩ := ih h
      omega

theorem mem_of_fileAt (h : fileAt files n = some f) : f ∈ files := by
  induction files with
  | nil => cases h
  | cons g earlier ih =>
    rw [fileAt] at h
    split at h
    · obtain rfl := Option.some.inj h
      exact List.mem_cons_self
    · exact List.mem_cons_of_mem _ (ih h)

/-- A file with a smaller number comes earlier. -/
theorem lt_of_pairwise {R : FileBelow → FileBelow → Prop} (h : files.Pairwise R) {g : FileBelow}
    {m : Nat} (hf : fileAt files n = some f) (hg : fileAt files m = some g) (hne : f ≠ g)
    (hnot : ¬ R f g) : n < m := by
  induction files with
  | nil => cases hf
  | cons last earlier ih =>
    obtain ⟨hlast, hearlier⟩ := List.pairwise_cons.mp h
    rw [fileAt] at hf hg
    split at hf
    · obtain rfl := Option.some.inj hf
      split at hg
      · exact absurd (Option.some.inj hg) hne
      · exact absurd (hlast g (mem_of_fileAt hg)) hnot
    · split at hg
      · have := bounds_of_fileAt hf
        omega
      · exact ih hearlier hf hg

theorem length_changeAt (change : Configuration → Configuration) (files : List FileBelow)
    (n : Nat) : (changeAt change files n).length = files.length := by
  induction files with
  | nil => rfl
  | cons f earlier ih =>
    rw [changeAt]
    split
    · rfl
    · rw [List.length_cons, List.length_cons, ih]

theorem fileAt_changeAt (change : Configuration → Configuration) (files : List FileBelow)
    (n m : Nat) : fileAt (changeAt change files n) m =
      (fileAt files m).map fun f => if m = n then { f with config := change f.config } else f := by
  induction files with
  | nil => rfl
  | cons f earlier ih =>
    rw [changeAt, fileAt]
    split
    · rename_i hn
      rw [fileAt]
      split
      · rename_i hm
        rw [Option.map_some, if_pos (hm.trans hn.symm)]
      · rename_i hm
        have hne : m ≠ n := fun heq => hm (heq.trans hn)
        simp [hne]
    · rename_i hn
      rw [fileAt, length_changeAt]
      split
      · rename_i hm
        rw [Option.map_some, if_neg fun heq => hn (heq.symm.trans hm)]
      · exact ih

theorem wellFormed_changeAt (h : ∀ f ∈ files, f.config.WellFormed)
    (hchange : ∀ c : Configuration, c.WellFormed → (change c).WellFormed) (n : Nat) :
    ∀ f ∈ changeAt change files n, f.config.WellFormed := by
  induction files with
  | nil => exact h
  | cons g earlier ih =>
    obtain ⟨hg, hearlier⟩ := List.forall_mem_cons.mp h
    rw [changeAt]
    split
    · exact List.forall_mem_cons.mpr ⟨hchange _ hg, hearlier⟩
    · exact List.forall_mem_cons.mpr ⟨hg, ih hearlier⟩

theorem patternsOf_changeAt (hf : fileAt files n = some f)
    (hchange : patternsInside (change f.config) = patternsInside f.config) :
    patternsOf (changeAt change files n) = patternsOf files := by
  induction files with
  | nil => cases hf
  | cons g earlier ih =>
    rw [fileAt] at hf
    rw [changeAt]
    split at hf
    · rename_i hn
      obtain rfl := Option.some.inj hf
      rw [if_pos hn, patternsOf, patternsOf, hchange]
    · rename_i hn
      rw [if_neg hn, patternsOf, patternsOf, ih hf]

end

/-! ## Places of the project and of the files below it -/

/-- The settings of a project, and the files below it, the last one first. -/
structure Scan where
  merged : Configuration
  files : List FileBelow

/-- The configuration that comes of them. -/
def Scan.config (scan : Scan) : ResolvedConfig := .ofMerged scan.merged (scopesOf scan.files)

/-- All tables hold each name once. -/
structure Scan.WellFormed (scan : Scan) : Prop where
  merged : scan.merged.WellFormed
  files : ∀ f ∈ scan.files, f.config.WellFormed

/-- A place in a file below a project, or, with the level zero, in the settings of the project. -/
structure Share where
  level : Nat
  reach : Reach
  deriving DecidableEq

namespace Share

/-- The pattern at which a share comes in. -/
def pattern (scan : Scan) (i : Share) : String :=
  match fileAt scan.files i.level with
  | some f => inside f.directory i.reach.pattern
  | none => i.reach.pattern

/-- The severity that a share sets for a key. -/
def severity (scan : Scan) (key : String) (i : Share) : Option Severity :=
  match fileAt scan.files i.level with
  | some f => f.config.severityIn key i.reach
  | none => if i.level = 0 then scan.merged.severityIn key i.reach else none

/-- Everything with another severity at a share. -/
def change (scan : Scan) (key : String) (s : Severity) (i : Share) : Scan :=
  if i.level = 0 then { scan with merged := scan.merged.withSeverity key s i.reach }
  else { scan with files := changeAt (·.withSeverity key s i.reach) scan.files i.level }

/-- The severity of a file is what a share says, whatever that is made to say. -/
def Decides (scan : Scan) (path key : String) (i : Share) : Prop :=
  (i.severity scan key).isSome ∧
    ∀ s, (((i.change scan key s).config).scopeFor path).severityOf key = some s

/-- At one pattern a later file goes before an earlier one, and the project comes last. -/
def Above (i j : Share) : Prop :=
  j.level < i.level ∨ i.level = j.level ∧ Reach.Over i.reach j.reach

end Share

/-- The shares in order. -/
def shares (scan : Scan) : Contributions Share where
  pattern := Share.pattern scan
  Above := Share.Above
  listed := Table.names scan.config.scopes

/-- The shares of the files at a pattern, the one that goes first before the others. -/
def stackOf (pattern : String) : List FileBelow → List Share
  | [] => []
  | f :: earlier =>
    (reachesBehind f.directory pattern).map (Share.mk (earlier.length + 1)) ++
      stackOf pattern earlier

section

variable {scan : Scan} {files : List FileBelow} {pattern key path : String} {i j : Share}

theorem level_of_mem_stackOf (h : i ∈ stackOf pattern files) :
    0 < i.level ∧ i.level ≤ files.length := by
  induction files with
  | nil => cases h
  | cons f earlier ih =>
    rw [List.length_cons]
    rcases List.mem_append.mp h with h | h
    · obtain ⟨reach, -, rfl⟩ := List.mem_map.mp h
      exact ⟨Nat.succ_pos _, Nat.le_refl _⟩
    · obtain ⟨hpos, hle⟩ := ih h
      exact ⟨hpos, Nat.le_succ_of_le hle⟩

theorem mem_stackOf : i ∈ stackOf pattern files ↔
    ∃ f, fileAt files i.level = some f ∧ inside f.directory i.reach.pattern = pattern := by
  induction files with
  | nil => simp [stackOf, fileAt]
  | cons f earlier ih =>
    rw [stackOf, List.mem_append, ih, fileAt]
    by_cases hlevel : i.level = earlier.length + 1
    · have hnone : ¬ ∃ g, fileAt earlier i.level = some g ∧
          inside g.directory i.reach.pattern = pattern := by
        rintro ⟨g, hg, -⟩
        have := bounds_of_fileAt hg
        omega
      rw [if_pos hlevel, or_iff_left hnone]
      constructor
      · intro h
        obtain ⟨reach, hreach, rfl⟩ := List.mem_map.mp h
        exact ⟨f, rfl, mem_reachesBehind.mp hreach⟩
      · rintro ⟨_, ⟨⟩, hinside⟩
        refine List.mem_map.mpr ⟨i.reach, mem_reachesBehind.mpr hinside, ?_⟩
        rw [← hlevel]
    · rw [if_neg hlevel]
      refine or_iff_right fun h => ?_
      obtain ⟨reach, -, rfl⟩ := List.mem_map.mp h
      exact hlevel rfl

theorem pairwise_stackOf (pattern : String) (files : List FileBelow) :
    (stackOf pattern files).Pairwise Share.Above := by
  induction files with
  | nil => exact .nil
  | cons f earlier ih =>
    refine List.pairwise_append.mpr ⟨List.pairwise_map.mpr ?_, ih, fun i hi j hj => ?_⟩
    · exact (pairwise_reachesBehind f.directory pattern).imp fun h => Or.inr ⟨rfl, h⟩
    · obtain ⟨reach, -, rfl⟩ := List.mem_map.mp hi
      exact Or.inl (Nat.lt_succ_of_le (level_of_mem_stackOf hj).2)

/-- The scopes of the files say at each pattern what the first share there says. -/
theorem scopeSeverity_scopesOf (h : ∀ f ∈ files, f.config.WellFormed) (key pattern : String) :
    scopeSeverity (scopesOf files) key pattern =
      (stackOf pattern files).findSome? fun i =>
        (fileAt files i.level).bind (·.config.severityIn key i.reach) := by
  induction files with
  | nil => rfl
  | cons f earlier ih =>
    obtain ⟨hf, hearlier⟩ := List.forall_mem_cons.mp h
    have hlast : ((reachesBehind f.directory pattern).map (Share.mk (earlier.length + 1))).findSome?
        (fun i => (fileAt (f :: earlier) i.level).bind (·.config.severityIn key i.reach)) =
          (reachesBehind f.directory pattern).findSome? (f.config.severityIn key) := by
      rw [List.findSome?_map]
      refine findSome?_congr fun reach _ => ?_
      simp [fileAt]
    have hrest : (stackOf pattern earlier).findSome?
        (fun i => (fileAt (f :: earlier) i.level).bind (·.config.severityIn key i.reach)) =
          (stackOf pattern earlier).findSome?
            fun i => (fileAt earlier i.level).bind (·.config.severityIn key i.reach) := by
      refine findSome?_congr fun i hi => ?_
      have hlevel := (level_of_mem_stackOf hi).2
      rw [fileAt, if_neg (by omega)]
    rw [scopesOf, scopeSeverity_bringIn hf (sound_scopesOf hearlier), ih hearlier, stackOf,
      List.findSome?_append, hlast, hrest]

theorem sound_scan (h : scan.WellFormed) : Sound (scopesOf scan.files) := sound_scopesOf h.files

theorem wellFormed_config (h : scan.WellFormed) : scan.config.WellFormed :=
  .ofMerged h.merged (sound_scan h).distinct (sound_scan h).scope

theorem not_above_swap (h : Share.Above i j) : ¬ Share.Above j i := by
  rintro (hlt | ⟨heq, hover⟩)
  · rcases h with hlt' | ⟨heq', -⟩
    · omega
    · omega
  · rcases h with hlt' | ⟨-, hover'⟩
    · omega
    · exact hover.1 hover'.2

theorem lawful_shares (h : scan.WellFormed) : (shares scan).Lawful :=
  ⟨(wellFormed_config h).distinct, fun _ _ h => not_above_swap h⟩

theorem fileAt_zero (files : List FileBelow) : fileAt files 0 = none := by
  cases h : fileAt files 0 with
  | none => rfl
  | some f => exact absurd (bounds_of_fileAt h).1 (Nat.lt_irrefl 0)

theorem renders_scan (h : scan.WellFormed) (key : String) :
    (shares scan).Renders (Share.severity scan key) key scan.config.scopes := by
  refine .of_stack (List.Sublist.refl _)
    (fun pattern => stackOf pattern scan.files ++ (reachesAt pattern).map (Share.mk 0))
    (fun pattern => ?_) (fun i pattern hi => ?_) (fun i hi => ?_) fun pattern => ?_
  · refine List.pairwise_append.mpr ⟨pairwise_stackOf _ _, List.pairwise_map.mpr ?_,
      fun i hi j hj => ?_⟩
    · exact (pairwise_reachesAt pattern).imp fun h => Or.inr ⟨rfl, h⟩
    · obtain ⟨reach, -, rfl⟩ := List.mem_map.mp hj
      exact Or.inl (level_of_mem_stackOf hi).1
  · rcases List.mem_append.mp hi with hi | hi
    · obtain ⟨f, hf, hpattern⟩ := mem_stackOf.mp hi
      simp only [shares, Share.pattern, hf, hpattern]
    · obtain ⟨reach, hreach, rfl⟩ := List.mem_map.mp hi
      simp only [shares, Share.pattern, fileAt_zero]
      exact mem_reachesAt.mp hreach
  · unfold Share.severity at hi
    cases hf : fileAt scan.files i.level with
    | some f =>
      refine List.mem_append_left _ (mem_stackOf.mpr ⟨f, hf, ?_⟩)
      simp only [shares, Share.pattern, hf]
    | none =>
      rw [hf] at hi
      dsimp only at hi
      split at hi
      · rename_i hlevel
        refine List.mem_append_right _ (List.mem_map.mpr ⟨i.reach, ?_, ?_⟩)
        · simp only [shares, Share.pattern, hf]
          exact mem_reachesAt.mpr rfl
        · rw [← hlevel]
      · cases hi
  · have hproject : (reachesAt pattern).findSome? (scan.merged.severityIn key) =
        ((reachesAt pattern).map (Share.mk 0)).findSome? (Share.severity scan key) := by
      rw [List.findSome?_map]
      congr 1
      funext reach
      simp [Share.severity, fileAt_zero]
    rw [Scan.config, scopeSeverity_ofMerged_below h.merged (sound_scan h),
      scopeSeverity_scopesOf h.files, ResolvedConfig.scopeSeverity_ofMerged h.merged,
      ← findSome?_reachesAt, hproject, List.findSome?_append]
    congr 1
    refine findSome?_congr fun i hi => ?_
    obtain ⟨f, hf, -⟩ := mem_stackOf.mp hi
    simp only [Share.severity, hf, Option.bind_some]

/-! ## Which share decides -/

/-- A share that says something is in the project or in one of the files. -/
theorem level_of_isSome (h : (i.severity scan key).isSome) (hzero : i.level ≠ 0) :
    ∃ f, fileAt scan.files i.level = some f ∧ (f.config.severityIn key i.reach).isSome := by
  unfold Share.severity at h
  cases hf : fileAt scan.files i.level with
  | none =>
    rw [hf] at h
    dsimp only at h
    rw [if_neg hzero] at h
    cases h
  | some f =>
    rw [hf] at h
    exact ⟨f, rfl, h⟩

theorem severity_change (h : (i.severity scan key).isSome) (s : Severity) (j : Share) :
    j.severity (i.change scan key s) key = if j = i then some s else j.severity scan key := by
  obtain ⟨level, reach⟩ := i
  obtain ⟨level', reach'⟩ := j
  unfold Share.change
  by_cases hzero : level = 0
  · subst hzero
    rw [if_pos rfl]
    simp only [Share.severity, Share.mk.injEq]
    cases hf : fileAt scan.files level' with
    | some f =>
      have hne : level' ≠ 0 := Nat.pos_iff_ne_zero.mp (bounds_of_fileAt hf).1
      simp [hne]
    | none =>
      dsimp only
      rw [Configuration.severityIn_withSeverity]
      by_cases hlevel : level' = 0 <;> by_cases hreach : reach' = reach <;> simp [hlevel, hreach]
  · rw [if_neg hzero]
    obtain ⟨f, hf, -⟩ := level_of_isSome h hzero
    simp only [Share.severity, fileAt_changeAt, Share.mk.injEq]
    by_cases hlevel : level' = level
    · subst hlevel
      simp only at hf
      rw [hf]
      simp [Configuration.severityIn_withSeverity]
    · cases hf' : fileAt scan.files level' with
      | some g => simp [hlevel]
      | none => simp [hlevel]

theorem wellFormed_change (h : scan.WellFormed) (key : String) (s : Severity) (i : Share) :
    (i.change scan key s).WellFormed := by
  unfold Share.change
  split
  · exact ⟨h.merged.withSeverity key s i.reach, h.files⟩
  · exact ⟨h.merged, wellFormed_changeAt h.files (fun c hc => hc.withSeverity key s i.reach) _⟩

theorem names_change (h : scan.WellFormed) (hsome : (i.severity scan key).isSome)
    (s : Severity) :
    Table.names (i.change scan key s).config.scopes = Table.names scan.config.scopes := by
  have hlisted := names_ofMerged_below scan.merged (sound_scan h)
  have hlisted' := names_ofMerged_below (i.change scan key s).merged
    (sound_scan (wellFormed_change h key s i))
  rw [Scan.config, Scan.config, hlisted, hlisted', names_scopesOf, names_scopesOf]
  unfold Share.change
  by_cases hzero : i.level = 0
  · rw [if_pos hzero]
    have hmerged : (scan.merged.severityIn key i.reach).isSome := by
      rw [Share.severity, hzero, fileAt_zero] at hsome
      exact hsome
    rw [ResolvedConfig.names_ofMerged_withSeverity h.merged hmerged]
  · rw [if_neg hzero]
    obtain ⟨f, hf, hreach⟩ := level_of_isSome hsome hzero
    have hpatterns : patternsOf (changeAt (·.withSeverity key s i.reach) scan.files i.level) =
        patternsOf scan.files := patternsOf_changeAt hf (patternsInside_withSeverity hreach s)
    rw [hpatterns]

theorem pattern_change (scan : Scan) (key : String) (s : Severity) (i j : Share) :
    j.pattern (i.change scan key s) = j.pattern scan := by
  unfold Share.change
  split
  · rfl
  · simp only [Share.pattern, fileAt_changeAt]
    cases fileAt scan.files j.level with
    | none => rfl
    | some f =>
      dsimp only [Option.map_some]
      split <;> rfl

theorem shares_change (h : scan.WellFormed) (hsome : (i.severity scan key).isSome)
    (s : Severity) : shares (i.change scan key s) = shares scan := by
  rw [shares, shares, names_change h hsome s]
  congr 1
  funext j
  exact pattern_change scan key s i j

theorem decides_iff_leads (h : scan.WellFormed) (path : String) :
    i.Decides scan path key ↔ (shares scan).Leads (Share.severity scan key) path i := by
  refine Contributions.decides_iff_leads (lawful_shares h) severity_change
    (fun s => wellFormed_config (wellFormed_change h key s i)) (fun hsome s => ?_) path
  rw [← shares_change h hsome s]
  exact renders_scan (wellFormed_change h key s i) key

/-! ## A deeper file and a shallower one -/

/-- A path, relative to a project, leads strictly below a directory, whichever slashes it uses. -/
def LiesBelow (names : Place) (path : String) : Prop :=
  ∃ rest, ResolvedConfig.slashed path =
    ResolvedConfig.slashed ("/".intercalate names) ++ "/" ++ rest

/-- A share has a pattern that is as specific as another one and is listed later. -/
def Share.Overtakes (scan : Scan) (pattern : String) (i : Share) : Prop :=
  specificity (i.pattern scan) = specificity pattern ∧
    [pattern, i.pattern scan] <+ patternsOf scan.files

theorem LiesBelow.globMatches {names : Place} (h : LiesBelow names path) :
    globMatches (inside names globalScope) (ResolvedConfig.slashed path) = true := by
  obtain ⟨rest, hrest⟩ := h
  rw [inside, escapedDirectory, globMatches_inside_iff]
  exact ⟨rest, hrest, globMatches_everything rest⟩

variable {m n : Nat} {f g : FileBelow}

theorem pattern_of_fileAt (hf : fileAt scan.files n = some f) (reach : Reach) :
    Share.pattern scan ⟨n, reach⟩ = inside f.directory reach.pattern := by
  rw [Share.pattern, hf]

theorem severity_of_fileAt (hf : fileAt scan.files n = some f) (key : String) (reach : Reach) :
    Share.severity scan key ⟨n, reach⟩ = f.config.severityIn key reach := by
  rw [Share.severity, hf]

theorem mem_patternsInside {c : Configuration} {reach : Reach}
    (h : (c.severityIn key reach).isSome) : reach.pattern ∈ patternsInside c := by
  cases reach with
  | everywhere => simp [patternsInside, isEmpty_scopePart h, Reach.pattern]
  | within p =>
    obtain ⟨o, ho, -⟩ := exists_of_isSome_bind h
    exact List.mem_append_right _ (Table.mem_names_of_mem (Table.mem_of_find? ho))

theorem mem_patternsOf (hg : fileAt files n = some g) {reach : Reach}
    (hkey : (g.config.severityIn key reach).isSome) :
    inside g.directory reach.pattern ∈ patternsOf files := by
  induction files with
  | nil => cases hg
  | cons last earlier ih =>
    rw [patternsOf, mem_union]
    rw [fileAt] at hg
    split at hg
    · obtain rfl := Option.some.inj hg
      exact Or.inr (List.mem_map_of_mem (mem_patternsInside hkey))
    · exact Or.inl (ih hg)

/-- Patterns of the files stand behind those of the project, in their own order. -/
theorem sublist_patternsOf (h : scan.WellFormed) {p q : String}
    (hp : p ∈ patternsOf scan.files) (hpq : [p, q] <+ Table.names scan.config.scopes) :
    [p, q] <+ patternsOf scan.files := by
  rw [Scan.config, names_ofMerged_below _ (sound_scan h), names_scopesOf] at hpq
  refine pair_sublist_of_append hpq fun hmem => ?_
  simpa [hp] using (List.mem_filter.mp hmem).2

/-- No share of an earlier file decides at a pattern that is not more specific than that of a later
file's directory, if and only if those that overtake it come after something else. -/
theorem decides_nothing_iff (h : scan.WellFormed) (hf : fileAt scan.files m = some f)
    (hg : fileAt scan.files n = some g) (hmn : m < n) (hpath : LiesBelow g.directory path)
    (hkey : (g.config.severityIn key .everywhere).isSome) :
    (∀ reach : Reach, specificity (inside f.directory reach.pattern) ≤
          specificity (inside g.directory globalScope) →
        ¬ (⟨m, reach⟩ : Share).Decides scan path key) ↔
      ∀ reach : Reach, (shares scan).Speaks (Share.severity scan key) path ⟨m, reach⟩ →
        Share.Overtakes scan (inside g.directory globalScope) ⟨m, reach⟩ →
        ∃ i, (shares scan).Speaks (Share.severity scan key) path i ∧
          (shares scan).Before i ⟨m, reach⟩ := by
  have hlawful := lawful_shares h
  -- The later file says something about the key at the pattern of its directory.
  have hspeaks : (shares scan).Speaks (Share.severity scan key) path ⟨n, .everywhere⟩ := by
    refine ⟨?_, ?_⟩
    · rw [severity_of_fileAt hg]
      exact hkey
    · show globMatches (Share.pattern scan ⟨n, .everywhere⟩) _ = true
      rw [pattern_of_fileAt hg]
      exact hpath.globMatches
  constructor
  · intro hnone reach hreach hovertakes
    obtain ⟨s, hs⟩ := Option.isSome_iff_exists.mp
      (hspeaks.isSome_severity (wellFormed_config h) (renders_scan h key))
    obtain ⟨first, hfirst, -⟩ := Contributions.exists_leads (wellFormed_config h)
      (renders_scan h key) hs
    refine ⟨first, hfirst.1, ?_⟩
    rcases hfirst.2 _ hreach with heq | hbefore
    · have hspecific := Nat.le_of_eq hovertakes.1
      rw [pattern_of_fileAt hf] at hspecific
      rw [← heq] at hfirst
      exact absurd ((decides_iff_leads h path).mpr hfirst) (hnone reach hspecific)
    · exact hbefore
  · intro hpreceded reach hle hdecides
    have hleads := (decides_iff_leads h path).mp hdecides
    have hovertakes : Share.Overtakes scan (inside g.directory globalScope) ⟨m, reach⟩ := by
      rcases hleads.2 _ hspeaks with heq | hrank | ⟨-, habove⟩
      · have hlevel : n = m := congrArg Share.level heq
        omega
      · have hrank' : Outranks (Table.names scan.config.scopes) (Share.pattern scan ⟨m, reach⟩)
            (Share.pattern scan ⟨n, .everywhere⟩) := hrank
        rw [pattern_of_fileAt hg] at hrank'
        rcases hrank' with hlt | ⟨heq, hlisted⟩
        · rw [pattern_of_fileAt hf] at hlt
          exact absurd hlt (Nat.not_lt_of_le hle)
        · have hmem := mem_patternsOf hg hkey
          exact ⟨heq, sublist_patternsOf h hmem hlisted⟩
      · have hle : n ≤ m := by
          rcases habove with hlt | ⟨heq, -⟩
          · exact Nat.le_of_lt hlt
          · exact Nat.le_of_eq heq.symm
        omega
    obtain ⟨i, hi, hbefore⟩ := hpreceded reach hleads.1 hovertakes
    rcases hleads.2 i hi with rfl | hbefore'
    · exact hbefore.asymm hlawful hbefore
    · exact hbefore.asymm hlawful hbefore'

theorem fileAt_append (later : List FileBelow) {earlier : List FileBelow}
    (h : n ≤ earlier.length) : fileAt (later ++ earlier) n = fileAt earlier n := by
  induction later with
  | nil => rfl
  | cons last rest ih =>
    rw [List.cons_append, fileAt, if_neg, ih]
    rw [List.length_append]
    omega

theorem nodup_patternsOf (files : List FileBelow) : (patternsOf files).Nodup := by
  induction files with
  | nil => exact List.nodup_nil
  | cons f earlier ih => exact nodup_union ih _

theorem prefix_patternsOf (later earlier : List FileBelow) :
    patternsOf earlier <+: patternsOf (later ++ earlier) := by
  induction later with
  | nil => exact List.prefix_refl _
  | cons f rest ih =>
    rw [List.cons_append, patternsOf, union_eq_append]
    exact ih.trans (List.prefix_append _ _)

/-- Nothing overtakes the pattern of a directory if no file before that of the directory has it. -/
theorem not_overtakes_of_new {later earlier : List FileBelow} {reach : Reach}
    (hfiles : scan.files = later ++ g :: earlier)
    (hnew : inside g.directory globalScope ∉ patternsOf earlier) (hm : m ≤ earlier.length)
    (hf : fileAt scan.files m = some f) (hkey : (f.config.severityIn key reach).isSome) :
    ¬ Share.Overtakes scan (inside g.directory globalScope) ⟨m, reach⟩ := by
  rintro ⟨-, hlisted⟩
  rw [pattern_of_fileAt hf] at hlisted
  have hsplit : later ++ g :: earlier = (later ++ [g]) ++ earlier := by simp
  rw [hfiles, hsplit] at hf hlisted
  rw [fileAt_append _ hm] at hf
  have hnodup := nodup_patternsOf ((later ++ [g]) ++ earlier)
  obtain ⟨rest, hrest⟩ := prefix_patternsOf (later ++ [g]) earlier
  rw [← hrest] at hlisted hnodup
  -- The pattern of the earlier file is listed with its file, that of the directory only later.
  have hmem := (pair_sublist_of_append hlisted hnew).subset
    (List.mem_cons_of_mem _ (List.mem_singleton_self _))
  exact (List.nodup_append.mp hnodup).2.2 _ (mem_patternsOf hf hkey) _ hmem rfl

end

/-! ## The files that a resolution finds -/

section

variable {r : Resolver} {disk : Disk} {project : String} {explicit : Option String} {root : Place}
  {seen : List String} {g : Gathered}

/-- The file of a directory below a project, if it has one that has not been read. -/
def fileOf (r : Resolver) (disk : Disk) (root : Place) (seen : List String) (names : Place) :
    Option FileBelow :=
  (disk.findDeclarative (root ++ names)).bind fun path =>
    if seen.contains path then none
    else
      match r.load disk .declarativeFile path with
      | .ok layer => some ⟨names, layer.config⟩
      | .error _ => none

/-- The files below a project, the last one first. -/
def filesBelow (r : Resolver) (disk : Disk) (root : Place) (seen : List String) : List FileBelow :=
  ((scannedDirectories disk root).filterMap (r.fileOf disk root seen)).reverse

/-- What a resolution makes its configuration of. -/
def scanOf (r : Resolver) (disk : Disk) (root : Place) (g : Gathered) : Scan where
  merged := Configuration.mergeAll g.layers
  files := if r.scan then r.filesBelow disk root g.seen else []

theorem fileOf_eq_some {names : Place} {f : FileBelow}
    (h : r.fileOf disk root seen names = some f) :
    ∃ path layer, r.load disk .declarativeFile path = .ok layer ∧ f = ⟨names, layer.config⟩ := by
  obtain ⟨path, -, h⟩ := Option.bind_eq_some_iff.mp h
  split at h
  · cases h
  · split at h
    · rename_i layer hlayer
      exact ⟨path, layer, hlayer, (Option.some.inj h).symm⟩
    · cases h

theorem scopes_of_scanBelow {dirs : List Place} {b b' : Below} {files : List FileBelow}
    (h : r.scanBelow disk root seen dirs b = .ok b') (hb : b.scopes = scopesOf files) :
    b'.scopes = scopesOf ((dirs.filterMap (r.fileOf disk root seen)).reverse ++ files) := by
  replace h := sweep_of_scanBelow h
  induction h generalizing files with
  | done => exact hb
  | @pass names rest b b' hread _ ih =>
    have hfile : r.fileOf disk root seen names = none := by
      refine Option.bind_eq_none_iff.mpr fun path hpath => ?_
      rw [if_pos (List.contains_iff_mem.mpr (hread path hpath))]
    rw [List.filterMap_cons_none hfile]
    exact ih hb
  | @next names rest path layer b b' hpath hnew hlayer _ ih =>
    have hfile : r.fileOf disk root seen names = some ⟨names, layer.config⟩ := by
      rw [fileOf, hpath, Option.bind_some, if_neg (by simpa using hnew), hlayer]
    have hadded : (addDirectory names layer b).scopes =
        scopesOf (⟨names, layer.config⟩ :: files) := by
      rw [scopes_addDirectory, hb, scopesOf]
    rw [List.filterMap_cons_some hfile, List.reverse_cons, List.append_assoc]
    exact ih hadded

/-- A resolution makes its configuration of the layers of the project and of the files below. -/
theorem config_of_resolve {loaded : Loaded} (h : r.resolve disk project explicit = .ok loaded) :
    ∃ root g, projectPlace disk project = .ok root ∧ r.gather disk root explicit = .ok g ∧
      loaded.config = (r.scanOf disk root g).config := by
  obtain ⟨root, hroot, g, hg, b, hb, rfl⟩ := resolve_eq_ok_iff.mp h
  refine ⟨root, g, hroot, hg, ?_⟩
  rw [below] at hb
  rw [Loaded.joined, scanOf, Scan.config]
  split at hb
  · rename_i hscan
    have hempty : ({} : Below).scopes = scopesOf [] := rfl
    rw [scopes_of_scanBelow hb hempty, List.append_nil, if_pos hscan, filesBelow]
  · rename_i hscan
    cases hb
    rw [if_neg hscan]
    rfl

theorem wellFormed_scanOf (h : r.gather disk root explicit = .ok g) :
    (r.scanOf disk root g).WellFormed := by
  refine ⟨Configuration.wellFormed_empty.foldl_merge (wellFormed_of_gather h), fun f hf => ?_⟩
  unfold scanOf at hf
  dsimp only at hf
  split at hf
  · obtain ⟨names, -, hfile⟩ := List.mem_filterMap.mp (List.mem_reverse.mp hf)
    obtain ⟨path, layer, hlayer, rfl⟩ := fileOf_eq_some hfile
    exact wellFormed_of_load hlayer
  · cases hf

/-- A directory is found before those in it. -/
theorem pairwise_files (h : disk.tree.NamedOnce) (r : Resolver) (root : Place) (g : Gathered) :
    (r.scanOf disk root g).files.Pairwise fun a b => ¬ a.directory <+: b.directory := by
  have hdirs : (scannedDirectories disk root).Pairwise fun a b => ¬ b <+: a :=
    (pairwise_scannedDirectories h root).imp Place.Precedes.not_isPrefix
  unfold scanOf
  dsimp only
  split
  · refine List.pairwise_reverse.mpr (hdirs.filterMap _ fun a b hab f hf f' hf' => ?_)
    obtain ⟨_, _, -, rfl⟩ := fileOf_eq_some hf
    obtain ⟨_, _, -, rfl⟩ := fileOf_eq_some hf'
    exact hab
  · exact .nil

/-- A file in a deeper directory that sets a key for all files there is safe from what a file in a
directory above it says as specifically or less so, if and only if each place of that file that
goes before it is itself preceded. -/
theorem shallower_decides_nothing_iff {loaded : Loaded} (htree : disk.tree.NamedOnce)
    (h : r.resolve disk project explicit = .ok loaded) :
    ∃ root g, projectPlace disk project = .ok root ∧ r.gather disk root explicit = .ok g ∧
      loaded.config = (r.scanOf disk root g).config ∧
      ∀ m n shallow deep, fileAt (r.scanOf disk root g).files m = some shallow →
        fileAt (r.scanOf disk root g).files n = some deep →
        shallow.directory.Above deep.directory →
        ∀ path, LiesBelow deep.directory path →
        ∀ key, (deep.config.severityIn key .everywhere).isSome →
          ((∀ reach : Reach, specificity (inside shallow.directory reach.pattern) ≤
                specificity (inside deep.directory globalScope) →
              ¬ (⟨m, reach⟩ : Share).Decides (r.scanOf disk root g) path key) ↔
            ∀ reach : Reach, (shares (r.scanOf disk root g)).Speaks
                (Share.severity (r.scanOf disk root g) key) path ⟨m, reach⟩ →
              Share.Overtakes (r.scanOf disk root g) (inside deep.directory globalScope)
                ⟨m, reach⟩ →
              ∃ i, (shares (r.scanOf disk root g)).Speaks
                  (Share.severity (r.scanOf disk root g) key) path i ∧
                (shares (r.scanOf disk root g)).Before i ⟨m, reach⟩) := by
  obtain ⟨root, g, hroot, hg, hconfig⟩ := config_of_resolve h
  refine ⟨root, g, hroot, hg, hconfig, fun m n shallow deep hshallow hdeep habove => ?_⟩
  have hne : shallow ≠ deep := by
    rintro rfl
    exact habove.2 rfl
  have hmn : m < n := lt_of_pairwise (pairwise_files htree r root g) hshallow hdeep hne
    fun hnot => hnot habove.1
  intro path hpath key hkey
  exact decides_nothing_iff (wellFormed_scanOf hg) hshallow hdeep hmn hpath hkey

end

/-! ## Two nested directories -/

/-- A directory in a directory, each with a configuration file. -/
def nestedDirectories (shallow deep : String) : Disk where
  tree := .directory [("d", .directory [("sub", .directory [("viola.json", .file (some deep))]),
    ("viola.json", .file (some shallow))])]
  cwd := []

theorem namedOnce_nestedDirectories (shallow deep : String) :
    (nestedDirectories shallow deep).tree.NamedOnce := by
  simp [nestedDirectories]

theorem liesBelow_sub : LiesBelow ["d", "sub"] "d/sub/a.ts" := by
  refine ⟨"a.ts", ?_⟩
  rw [slashed_eq_self (by decide), slashed_eq_self (by decide)]
  rfl

/-- The severity of the files of a directory. -/
def deepText : String := "\x7b'severity': \x7b'naming': 'error'\x7d\x7d"

/-- The pattern of that directory, and after it another one. -/
def coveringText : String :=
  "\x7b'scopes': \x7b'sub/**': \x7b\x7d, " ++
    "'sub/*.ts': \x7b'severity': \x7b'naming': 'off'\x7d\x7d\x7d\x7d"

/-- Two files of which the shallower one decides, although it only says something at a pattern that
is no more specific than that of the deeper directory. -/
def tied (scan : Scan) : Bool :=
  match scan.files with
  | [deep, shallow] =>
    deep.directory == ["d", "sub"] && shallow.directory == ["d"] && deep.config.patterns == [] &&
      deep.config.severityIn "naming" .everywhere == some .error &&
      (Share.severity scan "naming" ⟨1, .within "sub/*.ts"⟩).isSome &&
      [Severity.off, .info, .warn, .error].all fun s =>
        (((Share.change scan "naming" s ⟨1, .within "sub/*.ts"⟩).config).scopeFor
          "d/sub/a.ts").severityOf "naming" == some s
  | _ => false

/-- A shallower file keeps the pattern of a deeper directory where it has put it, so that another
pattern of its own goes before it. -/
theorem shallower_wins_tie :
    ∃ loaded g shallow deep, (nestedDirectories coveringText deepText).tree.NamedOnce ∧
      plainResolver.resolve (nestedDirectories coveringText deepText) "/" none = .ok loaded ∧
      plainResolver.gather (nestedDirectories coveringText deepText) [] none = .ok g ∧
      loaded.config =
        (plainResolver.scanOf (nestedDirectories coveringText deepText) [] g).config ∧
      (plainResolver.scanOf (nestedDirectories coveringText deepText) [] g).files =
        [deep, shallow] ∧
      shallow.directory = ["d"] ∧ deep.directory = ["d", "sub"] ∧
      LiesBelow ["d", "sub"] "d/sub/a.ts" ∧
      deep.config.severityIn "naming" .everywhere = some .error ∧ deep.config.patterns = [] ∧
      specificity (inside ["d"] "sub/*.ts") ≤ specificity (inside ["d", "sub"] globalScope) ∧
      (⟨1, .within "sub/*.ts"⟩ : Share).Decides
        (plainResolver.scanOf (nestedDirectories coveringText deepText) [] g) "d/sub/a.ts"
        "naming" := by
  have hrun : passes (fun _ => true) (plainResolver.resolve
      (nestedDirectories coveringText deepText) "/" none) = true := by decide +kernel
  have hproject : passes (· == []) (projectPlace (nestedDirectories coveringText deepText) "/") =
      true := by decide +kernel
  have htied : passes (fun g => tied (plainResolver.scanOf
      (nestedDirectories coveringText deepText) [] g)) (plainResolver.gather
        (nestedDirectories coveringText deepText) [] none) = true := by decide +kernel
  obtain ⟨loaded, hloaded, -⟩ := exists_of_passes hrun
  obtain ⟨root, g, hroot, hg, hconfig⟩ := config_of_resolve hloaded
  obtain ⟨root', hroot', hempty⟩ := exists_of_passes hproject
  obtain ⟨g', hg', htied⟩ := exists_of_passes htied
  rw [hroot', Except.ok.injEq] at hroot
  obtain rfl : root = [] := hroot.symm.trans (eq_of_beq hempty)
  rw [hg, Except.ok.injEq] at hg'
  subst hg'
  unfold tied at htied
  split at htied
  · rename_i deep shallow hfiles
    simp only [Bool.and_eq_true, beq_iff_eq, List.all_eq_true, List.mem_cons, List.not_mem_nil,
      or_false] at htied
    obtain ⟨⟨⟨⟨⟨hdeep, hshallow⟩, hpatterns⟩, hkey⟩, hsome⟩, hall⟩ := htied
    refine ⟨loaded, g, shallow, deep, namedOnce_nestedDirectories _ _, hloaded, hg, hconfig, hfiles,
      hshallow, hdeep, liesBelow_sub, hkey, hpatterns, by decide +kernel, hsome,
      fun s => hall s ?_⟩
    cases s <;> simp
  · cases htied

/-- The same file without the pattern of the deeper directory. -/
def uncoveringText : String :=
  "\x7b'scopes': \x7b'sub/*.ts': \x7b'severity': \x7b'naming': 'off'\x7d\x7d\x7d\x7d"

/-- Two files of which the deeper one brings in the pattern of its directory itself. -/
def uncovered (scan : Scan) : Bool :=
  match scan.files with
  | [deep, shallow] =>
    deep.directory == ["d", "sub"] && shallow.directory == ["d"] &&
      deep.config.severityIn "naming" .everywhere == some .error &&
      shallow.config.severityIn "naming" (.within "sub/*.ts") == some .off &&
      decide (inside deep.directory globalScope ∉ patternsOf [shallow])
  | _ => false

/-- A deeper file that brings in the pattern of its directory itself is safe. -/
theorem shallower_decides_nothing_uncovered :
    ∃ loaded g shallow deep, (nestedDirectories uncoveringText deepText).tree.NamedOnce ∧
      plainResolver.resolve (nestedDirectories uncoveringText deepText) "/" none = .ok loaded ∧
      plainResolver.gather (nestedDirectories uncoveringText deepText) [] none = .ok g ∧
      (plainResolver.scanOf (nestedDirectories uncoveringText deepText) [] g).files =
        [deep, shallow] ∧
      shallow.directory.Above deep.directory ∧ LiesBelow deep.directory "d/sub/a.ts" ∧
      deep.config.severityIn "naming" .everywhere = some .error ∧
      shallow.config.severityIn "naming" (.within "sub/*.ts") = some .off ∧
      ∀ reach : Reach, specificity (inside shallow.directory reach.pattern) ≤
          specificity (inside deep.directory globalScope) →
        ¬ (⟨1, reach⟩ : Share).Decides
          (plainResolver.scanOf (nestedDirectories uncoveringText deepText) [] g) "d/sub/a.ts"
          "naming" := by
  have hrun : passes (fun _ => true) (plainResolver.resolve
      (nestedDirectories uncoveringText deepText) "/" none) = true := by decide +kernel
  have hproject : passes (· == []) (projectPlace (nestedDirectories uncoveringText deepText) "/") =
      true := by decide +kernel
  have huncovered : passes (fun g => uncovered (plainResolver.scanOf
      (nestedDirectories uncoveringText deepText) [] g)) (plainResolver.gather
        (nestedDirectories uncoveringText deepText) [] none) = true := by decide +kernel
  obtain ⟨loaded, hloaded, -⟩ := exists_of_passes hrun
  obtain ⟨root, g, hroot, hg, -, hsafe⟩ := shallower_decides_nothing_iff
    (namedOnce_nestedDirectories uncoveringText deepText) hloaded
  obtain ⟨root', hroot', hempty⟩ := exists_of_passes hproject
  obtain ⟨g', hg', huncovered⟩ := exists_of_passes huncovered
  rw [hroot', Except.ok.injEq] at hroot
  obtain rfl : root = [] := hroot.symm.trans (eq_of_beq hempty)
  rw [hg, Except.ok.injEq] at hg'
  subst hg'
  unfold uncovered at huncovered
  split at huncovered
  · rename_i deep shallow hfiles
    simp only [Bool.and_eq_true, beq_iff_eq, decide_eq_true_eq] at huncovered
    obtain ⟨⟨⟨⟨hdeep, hshallow⟩, hkey⟩, hoff⟩, hnew⟩ := huncovered
    have hsplit : (plainResolver.scanOf (nestedDirectories uncoveringText deepText) [] g).files =
        [] ++ deep :: [shallow] := hfiles
    have hone : fileAt [deep, shallow] 1 = some shallow := rfl
    have htwo : fileAt [deep, shallow] 2 = some deep := rfl
    rw [← hfiles] at hone htwo
    have habove : shallow.directory.Above deep.directory := by
      rw [hdeep, hshallow]
      exact ⟨⟨["sub"], rfl⟩, by simp⟩
    have hbelow : LiesBelow deep.directory "d/sub/a.ts" := by
      rw [hdeep]
      exact liesBelow_sub
    have hsome : (deep.config.severityIn "naming" .everywhere).isSome := by
      rw [hkey]
      rfl
    refine ⟨loaded, g, shallow, deep, namedOnce_nestedDirectories _ _, hloaded, hg, hfiles, habove,
      hbelow, hkey, hoff, ?_⟩
    refine (hsafe 1 2 shallow deep hone htwo habove _ hbelow "naming" hsome).mpr ?_
    intro reach hspeaks hovertakes
    have hreach : (shallow.config.severityIn "naming" reach).isSome := by
      rw [← severity_of_fileAt hone]
      exact hspeaks.1
    exact absurd hovertakes (not_overtakes_of_new hsplit hnew (Nat.le_refl 1) hone
      hreach)
  · cases huncovered

end Resolver

end LintFront
