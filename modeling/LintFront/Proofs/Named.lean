import LintFront.Proofs.Walk

/-!
# Files named outright

Before the search a resolution reads the file named on the command line and the one named in the
environment, unless they are modules.

* `Gathered.Opened`: what has been gathered from such files.
* `Resolver.Opens`: the stack of a file that is named.
* `Resolver.addExplicit_opened`, `Resolver.addEnvironment_opened`: what the two files contribute.
-/

namespace LintFront

variable {disk : Disk} {r : Resolver} {explicit : Option String}

/-- A source is the module that has been found. -/
def IsModuleSource (moduleFile : Option String) (s : ConfigSource) : Prop :=
  ∃ path, moduleFile = some path ∧ s = ⟨path, .programmaticModule, none⟩

/-- What has been gathered are a module and the sources of some stacks. -/
structure Gathered.MadeOf (g : Gathered) (reads : Stack → Prop) : Prop where
  mem_iff : ∀ s, s ∈ g.sources ↔
    IsModuleSource g.moduleFile s ∨ ∃ stack, reads stack ∧ s ∈ stack.map Prod.fst
  isModule : ∀ path, g.moduleFile = some path → isModulePath path = true

/-- Of the files found by the search none has been read, only those that a predicate names. -/
structure Gathered.Opened (g : Gathered) (named : String → Prop) (reads : Stack → Prop) : Prop
    extends g.MadeOf reads where
  seen_iff : ∀ path, path ∈ g.seen ↔ named path
  exists_read : ∀ path, named path → ∃ stack, reads stack ∧ ∃ s ∈ stack.map Prod.fst, s.path = path

section

variable {g g' : Gathered} {named named' : String → Prop} {reads reads' : Stack → Prop}

theorem Gathered.MadeOf.congr (hg : g.MadeOf reads) (hreads : ∀ stack, reads stack ↔ reads' stack) :
    g.MadeOf reads' := by
  obtain rfl : reads = reads' := funext fun stack => propext (hreads stack)
  exact hg

theorem Gathered.MadeOf.add (hg : g.MadeOf reads) (hmodule : g'.moduleFile = g.moduleFile)
    {more : Stack → Prop} (hsources : ∀ s, s ∈ g'.sources ↔
      s ∈ g.sources ∨ ∃ stack, more stack ∧ s ∈ stack.map Prod.fst) :
    g'.MadeOf fun stack => reads stack ∨ more stack where
  mem_iff s := by
    simp only [hsources, hg.mem_iff, hmodule, or_and_right, exists_or, or_assoc]
  isModule := by
    rw [hmodule]
    exact hg.isModule

theorem Gathered.MadeOf.addModule (hg : g.MadeOf reads) (hnone : g.moduleFile = none)
    {path : String} (hpath : isModulePath path = true) (hmodule : g'.moduleFile = some path)
    (hsources : ∀ s, s ∈ g'.sources ↔ s ∈ g.sources ∨ s = ⟨path, .programmaticModule, none⟩) :
    g'.MadeOf reads where
  mem_iff s := by
    simp only [hsources, hg.mem_iff, IsModuleSource, hnone, hmodule, reduceCtorEq, false_and,
      exists_false, false_or, Option.some.injEq, exists_eq_left', or_comm]
  isModule p hp := by
    rw [hmodule] at hp
    cases hp
    exact hpath

theorem Gathered.Opened.congr (hg : g.Opened named reads)
    (hnamed : ∀ path, named path ↔ named' path) (hreads : ∀ stack, reads stack ↔ reads' stack) : g.Opened named' reads' := by
  obtain rfl : named = named' := funext fun path => propext (hnamed path)
  obtain rfl : reads = reads' := funext fun stack => propext (hreads stack)
  exact hg

theorem Gathered.Opened.add (hg : g.Opened named reads) {layer : Layer} {stack : Stack}
    {path : String} (hsources : layer.sources = stack.map Prod.fst)
    (hhead : ∃ s ∈ stack.map Prod.fst, s.path = path) :
    Gathered.Opened { g.add layer with seen := g.seen ++ [path] }
      (fun p => named p ∨ p = path) (fun read => reads read ∨ read = stack) where
  toMadeOf := by
    refine hg.toMadeOf.add ?_ fun s => ?_
    · rfl
    · rw [exists_eq_left, ← hsources]
      exact List.mem_append
  seen_iff p := by
    rw [List.mem_append, List.mem_singleton, hg.seen_iff]
  exists_read p hp := by
    rcases hp with hp | rfl
    · obtain ⟨read, hread, hs⟩ := hg.exists_read p hp
      exact ⟨read, Or.inl hread, hs⟩
    · exact ⟨stack, Or.inr rfl, hhead⟩

end

namespace Resolver

/-- The stack of a file that is named outright and is no module. -/
def Opens (r : Resolver) (disk : Disk) (kind : SourceKind) (given : String) (stack : Stack) :
    Prop :=
  isModulePath given = false ∧ disk.isFile given = true ∧
    ∃ place, disk.locate given = .ok place ∧ IsFileBlock disk r.presets kind place stack

theorem addNamed_opened {kind : SourceKind} {given : String} {g g' : Gathered}
    {named : String → Prop} {reads : Stack → Prop} (hfile : disk.isFile given = true)
    (hg : g.Opened named reads) (h : r.addNamed disk kind given g = .ok g') :
    g'.Opened (fun path => named path ∨ disk.NamedBy given path)
      (fun stack => reads stack ∨ r.Opens disk kind given stack) := by
  unfold addNamed at h
  split at h
  · rename_i hmodule
    have hnamed : ∀ path, named path ↔ named path ∨ disk.NamedBy given path := by
      refine fun path => (or_iff_left ?_).symm
      rintro ⟨hfalse, -⟩
      rw [hmodule] at hfalse
      cases hfalse
    have hreads : ∀ stack, reads stack ↔ reads stack ∨ r.Opens disk kind given stack := by
      refine fun stack => (or_iff_left ?_).symm
      rintro ⟨hfalse, -⟩
      rw [hmodule] at hfalse
      cases hfalse
    split at h
    · cases h
      exact hg.congr hnamed hreads
    · rename_i hnone
      cases h
      refine Gathered.Opened.congr ⟨?_, hg.seen_iff, hg.exists_read⟩ hnamed hreads
      refine hg.toMadeOf.addModule (by simpa using hnone) hmodule ?_ fun s => ?_
      · rfl
      · exact List.mem_append.trans (or_congr_right List.mem_singleton)
  · rename_i hmodule
    obtain ⟨layer, hlayer, h⟩ := bind_eq_ok_iff.mp h
    cases h
    obtain ⟨place, stack, hplace, hblock, hexplains⟩ := load_explained hlayer
    have hmodule' : isModulePath given = false := by simpa using hmodule
    have hsources := hexplains.sources
    obtain ⟨config, -, hown⟩ := id hblock
    have hread : (layer.sources.take 1).map ConfigSource.path = [place.toPath] := by
      obtain ⟨below, -, rfl⟩ := id hown
      rw [hsources]
      rfl
    rw [hread]
    refine (hg.add hsources ⟨_, hown.head_mem, rfl⟩).congr (fun path => or_congr_right ?_)
      fun read => or_congr_right ?_
    · constructor
      · rintro rfl
        exact ⟨hmodule', hfile, place, hplace, rfl⟩
      · rintro ⟨-, -, place', hplace', rfl⟩
        rw [hplace] at hplace'
        cases hplace'
        rfl
    · constructor
      · rintro rfl
        exact ⟨hmodule', hfile, place, hplace, hblock⟩
      · rintro ⟨-, -, place', hplace', hblock'⟩
        rw [hplace] at hplace'
        cases hplace'
        exact hblock'.unique hblock

theorem addExplicit_opened {g : Gathered} (h : r.addExplicit disk explicit {} = .ok g) :
    g.Opened (Flagged disk explicit) fun stack =>
      ∃ given, explicit.map disk.absolute = some given ∧
        r.Opens disk .explicitFlag given stack := by
  have hempty : Gathered.Opened {} (fun _ => False) fun _ => False :=
    ⟨⟨by simp [IsModuleSource], by simp⟩, by simp, by simp⟩
  unfold addExplicit at h
  split at h
  · cases h
    exact hempty.congr (by simp [Flagged]) (by simp)
  · dsimp only at h
    split at h
    · rename_i given hfile
      refine (addNamed_opened hfile hempty h).congr (fun path => ?_) fun stack => ?_
      · simp [Flagged]
      · simp
    · cases h

/-- What is named in the environment counts if it has not been named on the command line. -/
theorem addEnvironment_opened {g g' : Gathered} {reads : Stack → Prop}
    (hg : g.Opened (Flagged disk explicit) reads) (h : r.addEnvironment disk g = .ok g') :
    g'.Opened (r.Named disk explicit) fun stack => reads stack ∨
      ∃ given, r.environmentPath disk = some given ∧
        (∀ place, disk.locate given = .ok place → ¬ Flagged disk explicit place.toPath) ∧
        r.Opens disk .environmentVariable given stack := by
  unfold addEnvironment at h
  split at h
  · rename_i hnone
    cases h
    exact hg.congr (by simp [Named, hnone]) (by simp [hnone])
  · rename_i given hgiven
    have hnamed : ∀ path, r.Named disk explicit path ↔
        Flagged disk explicit path ∨ disk.NamedBy given path := by
      simp [Named, hgiven]
    simp only [hgiven, Option.some.injEq, exists_eq_left']
    split at h
    · rename_i hread
      cases h
      obtain ⟨place, hplace, hflagged⟩ :
          ∃ place, disk.locate given = .ok place ∧ Flagged disk explicit place.toPath := by
        unfold alreadyRead at hread
        split at hread
        · rename_i place hplace
          exact ⟨place, hplace, (hg.seen_iff _).mp (by simpa using hread)⟩
        · cases hread
      refine hg.congr (fun path => ((hnamed path).trans (or_iff_left_of_imp ?_)).symm)
        fun stack => (or_iff_left ?_).symm
      · rintro ⟨-, -, place', hplace', rfl⟩
        rw [hplace] at hplace'
        cases hplace'
        exact hflagged
      · rintro ⟨hfresh, -⟩
        exact hfresh place hplace hflagged
    · rename_i hunread
      split at h
      · rename_i hfile
        refine (addNamed_opened hfile hg h).congr (fun path => (hnamed path).symm)
          fun stack => or_congr_right ?_
        refine (and_iff_right fun place hplace hflagged => hunread ?_).symm
        simpa [alreadyRead, hplace] using (hg.seen_iff _).mpr hflagged
      · rename_i hfile
        cases h
        refine hg.congr (fun path => ((hnamed path).trans (or_iff_left ?_)).symm)
          fun stack => (or_iff_left ?_).symm
        · rintro ⟨-, hfile', -⟩
          exact hfile hfile'
        · rintro ⟨-, -, hfile', -⟩
          exact hfile hfile'

end Resolver

end LintFront
