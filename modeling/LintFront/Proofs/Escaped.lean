import LintFront.Proofs.Nested

/-!
# How specific the patterns of a directory are

A pattern behind a directory should fix one part more for each name on the way there. It does so
whatever the names hold, as long as none of them holds an opening brace. Escaping leaves a brace as
it is, since no pattern gives it a meaning; but a part with a brace does not count as literal, so
that no part from the first such name on is counted.

* `braceless`: the names before the first one with an opening brace.
* `specificity_behind`: how specific a pattern behind a directory is.
* `specificity_behind_iff`: when that is one part more for each name.
* `brace_hides_names`: a directory whose patterns count as less specific than they are.
-/

namespace LintFront

/-- The names before the first one with an opening brace. -/
def braceless (names : List String) : List String :=
  names.takeWhile fun name => decide (openBrace ∉ name.toList)

section

variable {names : List String}

theorem braceless_eq_self_iff :
    (braceless names).length = names.length ↔ ∀ name ∈ names, openBrace ∉ name.toList := by
  have hfront : braceless names <+: names := List.takeWhile_prefix _
  have hself : (braceless names).length = names.length ↔ braceless names = names :=
    ⟨hfront.eq_of_length, congrArg List.length⟩
  rw [hself, braceless, List.takeWhile_eq_self_iff]
  simp only [decide_eq_true_iff]

variable (hnames : names ≠ []) (hslash : ∀ name ∈ names, '/' ∉ name.toList)

include hnames hslash

/-- A path holds a brace if one of its names does. -/
theorem mem_intercalate_iff :
    openBrace ∈ ("/".intercalate names).toList ↔ ∃ name ∈ names, openBrace ∈ name.toList := by
  have hsegments : (segments '/' ("/".intercalate names).toList).map String.ofList = names :=
    Place.segmentsOf_intercalate hslash hnames
  constructor
  · intro h
    have hne : openBrace ≠ '/' := by decide
    obtain ⟨part, hpart, hbrace⟩ := exists_mem_segments hne h
    refine ⟨String.ofList part, ?_, by simpa using hbrace⟩
    rw [← hsegments]
    exact List.mem_map_of_mem hpart
  · rintro ⟨name, hname, hbrace⟩
    rw [← hsegments] at hname
    obtain ⟨part, hpart, rfl⟩ := List.mem_map.mp hname
    exact (mem_segments hpart).2 _ (by simpa using hbrace)

/-- An escaped path fixes its names up to the first one with a brace. -/
theorem specificity_globEscape :
    specificity (globEscape ("/".intercalate names)) = (braceless names).length := by
  have hsegments : (segments '/' ("/".intercalate names).toList).map String.ofList = names :=
    Place.segmentsOf_intercalate hslash hnames
  have hliteral : isLiteralPart ∘ escapeChars =
      (fun name : String => decide (openBrace ∉ name.toList)) ∘ String.ofList := by
    funext part
    simp [isLiteralPart_escapeChars]
  have hbraceless : (braceless names).length =
      ((segments '/' ("/".intercalate names).toList).takeWhile
        (isLiteralPart ∘ escapeChars)).length := by
    rw [hliteral, ← List.length_map String.ofList, ← List.takeWhile_map, hsegments, braceless]
  rw [hbraceless, specificity, specificityOf, globEscape, String.toList_ofList,
    segments_escapeChars, List.takeWhile_map, List.length_map]

/-- A pattern behind a directory fixes all names of the directory and what it fixes itself, or the
names up to the first one with a brace and nothing else. -/
theorem specificity_behind (pattern : String) :
    specificity (globEscape ("/".intercalate names) ++ "/" ++ pattern) =
      if ∃ name ∈ names, openBrace ∈ name.toList then (braceless names).length
      else names.length + specificity pattern := by
  by_cases hbrace : openBrace ∈ ("/".intercalate names).toList
  · rw [if_pos ((mem_intercalate_iff hnames hslash).mp hbrace),
      specificity_inside_of_brace hbrace, specificity_globEscape hnames hslash]
  · rw [if_neg fun h => hbrace ((mem_intercalate_iff hnames hslash).mpr h),
      specificity_inside hbrace, Place.segmentsOf_intercalate hslash hnames]

/-- A pattern behind a directory is more specific than the pattern by the number of the names of
the directory, if and only if none of them holds an opening brace. Behind one that does, all
patterns are as specific as the names before it are many. -/
theorem specificity_behind_iff (pattern : String) :
    (specificity (globEscape ("/".intercalate names) ++ "/" ++ pattern) =
        names.length + specificity pattern ↔ ∀ name ∈ names, openBrace ∉ name.toList) ∧
      ((∃ name ∈ names, openBrace ∈ name.toList) →
        specificity (globEscape ("/".intercalate names) ++ "/" ++ pattern) =
          (braceless names).length) := by
  rw [specificity_behind hnames hslash]
  by_cases hbrace : ∃ name ∈ names, openBrace ∈ name.toList
  · rw [if_pos hbrace]
    refine ⟨⟨fun heq => ?_, fun hall => ?_⟩, fun _ => rfl⟩
    · have hle : (braceless names).length ≤ names.length :=
        (List.takeWhile_prefix _).length_le
      exact braceless_eq_self_iff.mp (by omega)
    · obtain ⟨name, hname, hmem⟩ := hbrace
      exact absurd hmem (hall name hname)
  · rw [if_neg hbrace]
    refine ⟨⟨fun _ name hname hmem => hbrace ⟨name, hname, hmem⟩, fun _ => rfl⟩, ?_⟩
    exact fun h => absurd h hbrace

end

/-- Brackets, stars and question marks in the names of directories change nothing. A brace does. -/
theorem specificity_behind_iff_bracketed :
    ["a]*", "[1]?"] ≠ [] ∧ (∀ name ∈ ["a]*", "[1]?"], '/' ∉ name.toList) ∧
      specificity (globEscape ("/".intercalate ["a]*", "[1]?"]) ++ "/" ++ "src/*.ts") =
        2 + specificity "src/*.ts" ∧
      (∀ name ∈ ["a]*", "\x7b", "[1]?"], '/' ∉ name.toList) ∧
      specificity (globEscape ("/".intercalate ["a]*", "\x7b", "[1]?"]) ++ "/" ++ "src/*.ts") =
        1 := by
  have hslash : ∀ name ∈ ["a]*", "[1]?"], '/' ∉ name.toList := by decide
  have hslash' : ∀ name ∈ ["a]*", "\x7b", "[1]?"], '/' ∉ name.toList := by decide
  obtain ⟨hexact, -⟩ := specificity_behind_iff (by decide) hslash "src/*.ts"
  obtain ⟨-, hends⟩ := specificity_behind_iff (by decide) hslash' "src/*.ts"
  exact ⟨by decide, hslash, hexact.mpr (by decide), hslash', hends (by decide)⟩

/-- The pattern of a directory with a brace in its name has the files of that directory only, as if
the brace were any other character. But it counts as no more specific than the pattern of every
file, which decides if it is listed later. -/
theorem brace_hides_names :
    globEscape ("/".intercalate ["\x7ba\x7d"]) ++ "/" ++ "**" = "\x7ba\x7d/**" ∧
      globMatches "\x7ba\x7d/**" "\x7ba\x7d/x.ts" = true ∧
      globMatches "\x7ba\x7d/**" "a/x.ts" = false ∧
      specificity "\x7ba\x7d/**" ≠ ["\x7ba\x7d"].length + specificity "**" ∧
      ((twoScopes "naming" "\x7ba\x7d/**" .off "**" .error).scopeFor
        "\x7ba\x7d/x.ts").severityOf "naming" = some .error := by
  refine ⟨?_, ?_, ?_, ?_, ?_⟩ <;> decide +kernel

end LintFront
