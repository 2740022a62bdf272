import LintFront.Module.Bridge
import LintFront.Proofs.Addresses
import LintFront.Proofs.Literals

/-!
# What a script has in it

A bridge script is the same for all modules, but for three literals. The script is code for another
program, so what matters is that nothing of a path or of an argument stands outside its literal, and
that each literal is read back as what it was made of.

* `Insertions`: what stands between the fixed parts of a script.
* `Insertions.Denote`: the insertions are literals for a module, a program and its arguments.
* `outside?_text`: what stands outside the literals of a script.
* `Bridge.script_embeds`: which paths have a script, and what is in it.
-/

namespace LintFront

namespace BridgeScript

/-- What stands between the fixed parts of a script. -/
structure Insertions where
  url : List Char
  program : List Char
  arguments : List Char

/-- The script with the insertions. -/
def Insertions.script (i : Insertions) : String :=
  String.ofList (opening.toList ++ i.url ++ afterUrl.toList ++ i.program ++
    afterProgram.toList ++ i.arguments ++ afterArguments.toList)

/-- The insertions are literals for a module, a program and its arguments. -/
structure Insertions.Denote (i : Insertions) (path program : String) (arguments : List String) :
    Prop where
  /-- The first literal is the URL of the path. -/
  url : ∃ url found, IsLiteral i.url (.text url) ∧ pathOfUrl? url = some found ∧
    pathParts found = pathParts path
  program : IsLiteral i.program (.text program)
  /-- Outside of its literals, the script is one that has empty texts for all that is inserted. -/
  outside : ∃ code, outside? i.script.toList = some code ∧
    outside? (text ⟨"", "", arguments.map fun _ => ""⟩).toList = some code
  arguments : IsLiteral i.arguments (textsValue arguments)

/-! ## Outside of the literals -/

theorem outside?_opening : ∃ code, outside? opening.toList = some code :=
  Option.isSome_iff_exists.mp (by decide)

theorem outside?_afterUrl : ∃ code, outside? afterUrl.toList = some code := by
  refine Option.isSome_iff_exists.mp ?_
  unfold afterUrl
  simp only [String.toList_append]
  decide +kernel

theorem outside?_afterProgram : ∃ code, outside? afterProgram.toList = some code :=
  Option.isSome_iff_exists.mp (by decide)

theorem outside?_afterArguments : ∃ code, outside? afterArguments.toList = some code := by
  refine Option.isSome_iff_exists.mp ?_
  unfold afterArguments
  simp only [String.toList_append]
  decide +kernel

/-- What stands outside the literals of a script depends on the number of arguments only. -/
theorem outside?_text (s : BridgeScript) : ∃ code, outside? s.text.toList = some code ∧
    ∀ t : BridgeScript, t.arguments.length = s.arguments.length →
      outside? t.text.toList = some code := by
  obtain ⟨opened, hopening⟩ := outside?_opening
  obtain ⟨codeUrl, hurl⟩ := outside?_afterUrl
  obtain ⟨codeProgram, hprogram⟩ := outside?_afterProgram
  obtain ⟨codeArguments, harguments⟩ := outside?_afterArguments
  have houtside : ∀ t : BridgeScript, outside? t.text.toList =
      some (opened ++ (['"', '"'] ++ (codeUrl ++ (['"', '"'] ++ (codeProgram ++
        (listLiteral (t.arguments.map fun _ => "") ++ codeArguments)))))) := by
    intro t
    unfold text
    rw [String.toList_ofList]
    simp only [literal, List.append_assoc]
    rw [outside?_append hopening, outside?_append (outside?_printText t.url),
      outside?_append hurl, outside?_append (outside?_printText t.program),
      outside?_append hprogram, outside?_append (outside?_listLiteral t.arguments), harguments]
    simp only [Option.map_some]
  refine ⟨_, houtside s, fun t ht => ?_⟩
  have hempty : (t.arguments.map fun _ => "") = s.arguments.map fun _ => "" := by
    rw [List.map_const', List.map_const', ht]
  rw [houtside t, hempty]

end BridgeScript

/-! ## Scripts -/

namespace Bridge

open BridgeScript

/-- A module has a script if its path is absolute. What is inserted there are three literals, which
are read back as the path, the program and its arguments. -/
theorem script_embeds (b : Bridge) (path : String) :
    ((∃ problem, b.script path = .error (.bridge problem)) ↔ isAbsolute path = false) ∧
      (isAbsolute path = true → ∃ i : Insertions, b.script path = .ok i.script ∧
        i.Denote path b.program b.arguments) := by
  cases habsolute : isAbsolute path with
  | false =>
    have hnone : fileUrl? path = none := by rw [fileUrl?, if_neg (by simp [habsolute])]
    refine ⟨iff_of_true ⟨.noUrl path, ?_⟩ rfl, fun h => absurd h (by decide)⟩
    rw [script, hnone]
  | true =>
    obtain ⟨url, found, hurl, hfound, hparts⟩ := pathOfUrl?_fileUrl? habsolute
    have hscript : b.script path = .ok (text ⟨url, b.program, b.arguments⟩) := by
      rw [script, hurl]
    refine ⟨iff_of_false ?_ (by decide), fun _ => ⟨⟨literal url, literal b.program,
      listLiteral b.arguments⟩, hscript, ?_⟩⟩
    · rintro ⟨problem, herror⟩
      rw [hscript] at herror
      cases herror
    · obtain ⟨code, hcode, hsame⟩ := outside?_text ⟨url, b.program, b.arguments⟩
      exact {
        url := ⟨url, found, isLiteral_printText url, hfound, hparts⟩
        program := isLiteral_printText b.program
        arguments := isLiteral_listLiteral b.arguments
        outside := ⟨code, hcode, hsame _ (List.length_map _)⟩ }

/-- A path with repeated slashes, a dot, blanks, quotes and percent signs, and arguments that try to
leave their literals. -/
theorem script_embeds_quotes :
    isAbsolute "//srv/./a \"b%20/é\\.ts" = true ∧
      ∃ i : Insertions,
        (Bridge.mk "deno" [] "/bin/viola \"x\"" ["\"); run(", "\n\\", "\x7b\x7d"]).script
          "//srv/./a \"b%20/é\\.ts" = .ok i.script ∧
        i.Denote "//srv/./a \"b%20/é\\.ts" "/bin/viola \"x\"" ["\"); run(", "\n\\", "\x7b\x7d"] :=
  ⟨by decide, (script_embeds ⟨"deno", [], "/bin/viola \"x\"", ["\"); run(", "\n\\", "\x7b\x7d"]⟩
    "//srv/./a \"b%20/é\\.ts").2 (by decide)⟩

end Bridge

end LintFront
