import LintFront.Glob.Specificity
import LintFront.Proofs.Patterns
import LintFront.Proofs.Places
import Mathlib.Data.List.TakeWhile

/-!
# Patterns up to their first wildcard

How specific a pattern is goes by its text: escapes are taken out of each part, one kind after the
other, and a part counts as literal if nothing in what is left looks like a wildcard. What the
pattern means goes by its first wildcard, and the parts before that one are the literal ones. Both
numbers are the same unless a brace stands before the first wildcard, which has no meaning but is
taken for one, or the wildcard is a class whose first members look like an escape when another
escape is taken out between them.

* `opening`: the characters before the first wildcard of a pattern, and the text from there on.
* `literalParts`: the number of leading parts without a wildcard.
* `isLiteralPart_append`: what is counted as literal of a text that spells characters.
* `StartsWild`: texts that start with a wildcard however they are divided, and whatever escapes are
  taken out.
* `Counted`: patterns that have neither of the two flaws.
* `Counted.specificity_eq`: they are as specific as they have literal parts.
-/

namespace LintFront

/-- The character that starts a group of alternatives. -/
def openBrace : Char := '\x7b'

/-! ## The first wildcard -/

/-- The characters before the first wildcard of a pattern, and the text from there on. A character
that is escaped is no wildcard. -/
def opening : List Char → List Char × List Char
  | '[' :: c :: ']' :: rest =>
    if isGlobSpecial c then (c :: (opening rest).1, (opening rest).2)
    else ([], '[' :: c :: ']' :: rest)
  | c :: rest =>
    if Glob.isWild c then ([], c :: rest) else (c :: (opening rest).1, (opening rest).2)
  | [] => ([], [])

/-- The number of leading parts of a pattern without a wildcard: those before the part of the first
wildcard, or all. -/
def literalParts (pattern : String) : Nat :=
  let parts := segments '/' (opening pattern.toList).1
  if (opening pattern.toList).2 = [] then parts.length else parts.length - 1

/-- A class that could be taken for an escape when an escape in it is taken out. -/
def startsNested : List Char → Bool
  | '[' :: '[' :: _ => true
  | '[' :: c :: '[' :: _ => isGlobSpecial c
  | _ => false

/-- No brace stands before the first wildcard, which is no class that could be taken for an
escape. -/
structure Counted (pattern : String) : Prop where
  brace : openBrace ∉ (opening pattern.toList).1
  nested : startsNested (opening pattern.toList).2 = false

instance (pattern : String) : Decidable (Counted pattern) :=
  decidable_of_iff (openBrace ∉ (opening pattern.toList).1 ∧
      startsNested (opening pattern.toList).2 = false)
    ⟨fun ⟨hbrace, hnested⟩ => ⟨hbrace, hnested⟩, fun h => ⟨h.brace, h.nested⟩⟩

/-- What comes before the first wildcard spells its characters. -/
theorem exists_opening (pattern : List Char) : ∃ text, pattern = text ++ (opening pattern).2 ∧
    Glob.Spells globSpecials text (opening pattern).1 := by
  fun_induction opening pattern with
  | case1 c rest hc ih =>
    obtain ⟨text, htext, hspells⟩ := ih
    refine ⟨'[' :: c :: ']' :: text, ?_, .alone (mem_globSpecials_iff.mpr hc) hspells⟩
    rw [List.cons_append, List.cons_append, List.cons_append, ← htext]
  | case2 c rest hc => exact ⟨[], rfl, .nil⟩
  | case3 c rest hno hc => exact ⟨[], rfl, .nil⟩
  | case4 c rest hno hc ih =>
    obtain ⟨text, htext, hspells⟩ := ih
    refine ⟨c :: text, ?_, .plain (Bool.eq_false_iff.mpr hc) hspells⟩
    rw [List.cons_append, ← htext]
  | case5 => exact ⟨[], rfl, .nil⟩

/-- What comes from the first wildcard on starts with one, and with no escape. -/
theorem opening_stops (pattern : List Char) : ∀ c rest, (opening pattern).2 = c :: rest →
    Glob.isWild c = true ∧
      ∀ d more, c = '[' → rest = d :: ']' :: more → isGlobSpecial d = false := by
  fun_induction opening pattern with
  | case1 c rest hc ih => exact ih
  | case2 c rest hc =>
    rintro _ _ ⟨⟩
    refine ⟨rfl, ?_⟩
    rintro _ _ - ⟨⟩
    simpa using hc
  | case3 c rest hno hc =>
    rintro _ _ ⟨⟩
    refine ⟨hc, ?_⟩
    rintro d more rfl rfl
    exact absurd rfl (hno _ _ rfl)
  | case4 c rest hno hc ih => exact ih
  | case5 =>
    rintro _ _ ⟨⟩

/-! ## Escapes that are taken out -/

theorem dropClass_cons_of_ne {c : Char} (hc : c ≠ '[') (x : Char) (text : List Char) :
    dropClass x (c :: text) = c :: dropClass x text := by
  rw [dropClass]
  rintro _ _ rfl
  exact absurd rfl hc

theorem dropClass_bracket {x : Char} {text : List Char} (h : ∀ rest, text ≠ x :: ']' :: rest) :
    dropClass x ('[' :: text) = '[' :: dropClass x text := by
  cases text with
  | nil => rfl
  | cons c text =>
    cases text with
    | nil => rfl
    | cons d rest =>
      by_cases hd : d = ']'
      · subst hd
        rw [dropClass, if_neg]
        rintro rfl
        exact h rest rfl
      · rw [dropClass]
        rintro c' rest' - htail
        exact hd (List.cons.inj (List.cons.inj htail).2).1

/-- The escapes of one character are taken out of a text that spells characters, whatever stands
behind it. Closing brackets come last, when no opening one is escaped any more. -/
theorem Glob.Spells.exists_dropClass {x : Char} {escaped text cs : List Char}
    (h : Glob.Spells (x :: escaped) text cs) (hx : x = ']' → '[' ∉ escaped) :
    ∃ text' cs', Glob.Spells escaped text' cs' ∧ (∀ c, c ≠ x → (c ∈ cs' ↔ c ∈ cs)) ∧
      ∀ rest, dropClass x (text ++ rest) = text' ++ dropClass x rest := by
  induction h with
  | nil => exact ⟨[], [], .nil, fun _ _ => Iff.rfl, fun _ => rfl⟩
  | @plain c text cs hc _ ih =>
    obtain ⟨text', cs', hspells, hmem, hdrop⟩ := ih
    have hbracket : c ≠ '[' := by
      rintro rfl
      cases hc
    refine ⟨c :: text', c :: cs', .plain hc hspells, fun d hd => ?_, fun rest => ?_⟩
    · rw [List.mem_cons, List.mem_cons, hmem d hd]
    · rw [List.cons_append, dropClass_cons_of_ne hbracket, hdrop, List.cons_append]
  | @alone c text cs hc _ ih =>
    obtain ⟨text', cs', hspells, hmem, hdrop⟩ := ih
    by_cases hcx : c = x
    · refine ⟨text', cs', hspells, fun d hd => ?_, fun rest => ?_⟩
      · rw [hmem d hd, List.mem_cons, or_iff_right (hcx ▸ hd)]
      · rw [List.cons_append, List.cons_append, List.cons_append, dropClass, if_pos hcx, hdrop]
    · have hescaped : c ∈ escaped := (List.mem_cons.mp hc).resolve_left hcx
      refine ⟨'[' :: c :: ']' :: text', c :: cs', .alone hescaped hspells, fun d hd => ?_,
        fun rest => ?_⟩
      · rw [List.mem_cons, List.mem_cons, hmem d hd]
      have hclose : dropClass x (c :: ']' :: (text ++ rest)) =
          c :: ']' :: (text' ++ dropClass x rest) := by
        by_cases hbracket : c = '['
        · -- An escaped opening bracket with a closing one behind it is no escape of `x`.
          subst hbracket
          have hne : ']' ≠ x := fun heq => hx heq.symm hescaped
          rw [dropClass_bracket fun _ heq => hne (List.cons.inj heq).1,
            dropClass_cons_of_ne (by decide), hdrop]
        · rw [dropClass_cons_of_ne hbracket, dropClass_cons_of_ne (by decide), hdrop]
      rw [List.cons_append, List.cons_append, List.cons_append,
        dropClass_bracket fun _ heq => hcx (List.cons.inj heq).1, hclose]
      rfl

theorem Glob.Spells.eq_of_nil {text cs : List Char} (h : Glob.Spells [] text cs) :
    text = cs ∧ ∀ c ∈ cs, Glob.isWild c = false := by
  induction h with
  | nil => exact ⟨rfl, fun _ hc => absurd hc List.not_mem_nil⟩
  | plain hc _ ih => exact ⟨congrArg _ ih.1, List.forall_mem_cons.mpr ⟨hc, ih.2⟩⟩
  | alone hc _ _ => cases hc

/-- When all escapes are taken out of a text that spells characters, no wildcard starts in it. -/
theorem Glob.Spells.exists_dropEscapes {text cs : List Char}
    (h : Glob.Spells globSpecials text cs) :
    ∃ cs', (∀ c ∈ cs', Glob.isWild c = false) ∧ (openBrace ∈ cs' ↔ openBrace ∈ cs) ∧
      ∀ rest, dropEscapes (text ++ rest) = cs' ++ dropEscapes rest := by
  obtain ⟨text₁, cs₁, h₁, hmem₁, hdrop₁⟩ := h.exists_dropClass (by decide)
  obtain ⟨text₂, cs₂, h₂, hmem₂, hdrop₂⟩ := h₁.exists_dropClass (by decide)
  obtain ⟨text₃, cs₃, h₃, hmem₃, hdrop₃⟩ := h₂.exists_dropClass (by decide)
  obtain ⟨text₄, cs₄, h₄, hmem₄, hdrop₄⟩ := h₃.exists_dropClass (by decide)
  obtain ⟨rfl, hplain⟩ := h₄.eq_of_nil
  refine ⟨text₄, hplain, ?_, fun rest => ?_⟩
  · rw [hmem₄ _ (by decide), hmem₃ _ (by decide), hmem₂ _ (by decide), hmem₁ _ (by decide)]
  · simp only [dropEscapes, List.foldl_cons, List.foldl_nil]
    rw [hdrop₁, hdrop₂, hdrop₃, hdrop₄]

/-- A text that spells characters is literal unless one of them is a brace. -/
theorem isLiteralPart_append {text cs : List Char} (h : Glob.Spells globSpecials text cs)
    (rest : List Char) :
    isLiteralPart (text ++ rest) = (decide (openBrace ∉ cs) && isLiteralPart rest) := by
  obtain ⟨cs', hplain, hbrace, hdrop⟩ := h.exists_dropEscapes
  have hany : (cs'.any fun c => c = '*' || c = '?' || c = '[' || c = '\x7b') =
      decide (openBrace ∈ cs) := by
    rw [Bool.eq_iff_iff, List.any_eq_true, decide_eq_true_iff, ← hbrace]
    constructor
    · rintro ⟨c, hc, hspecial⟩
      have hwild := hplain c hc
      simp only [Glob.isWild, Bool.or_eq_false_iff, decide_eq_false_iff_not] at hwild
      simp only [Bool.or_eq_true, decide_eq_true_eq] at hspecial
      obtain ⟨⟨hone, hmany⟩, hclass⟩ := hwild
      rcases hspecial with ((rfl | rfl) | rfl) | rfl
      · exact absurd rfl hmany
      · exact absurd rfl hone
      · exact absurd rfl hclass
      · exact hc
    · exact fun hc => ⟨openBrace, hc, rfl⟩
  rw [isLiteralPart, hdrop, List.any_append, hany, Bool.not_or, decide_not]
  rfl

/-! ## Wildcards that stay -/

/-- A text that starts with a wildcard. It does so even if it ends early, or if some escapes are
taken out of it: no class is divided in front of its first member or taken for an escape. -/
inductive StartsWild : List Char → Prop
  | anyChar (tail : List Char) : StartsWild ('?' :: tail)
  | stars (tail : List Char) : StartsWild ('*' :: tail)
  | unclosed : StartsWild ['[']
  | closesLater (c : Char) : StartsWild ['[', c]
  | plainClass {c : Char} (hc : isGlobSpecial c = false) (tail : List Char) :
      StartsWild ('[' :: c :: tail)
  | specialClass {c d : Char} (hc : c ≠ '[') (hd : d ≠ '[') (hclose : d ≠ ']') (tail : List Char) :
      StartsWild ('[' :: c :: d :: tail)

namespace StartsWild

variable {text : List Char}

/-- A wildcard stays where it is when escapes are taken out. -/
theorem dropClass {x : Char} (hx : isGlobSpecial x = true) (h : StartsWild text) :
    StartsWild (dropClass x text) := by
  cases h with
  | anyChar tail =>
    rw [dropClass_cons_of_ne (by decide)]
    exact .anyChar _
  | stars tail =>
    rw [dropClass_cons_of_ne (by decide)]
    exact .stars _
  | unclosed => exact .unclosed
  | closesLater c =>
    have hkept : LintFront.dropClass x ['[', c] = ['[', c] := by simp [LintFront.dropClass]
    rw [hkept]
    exact .closesLater c
  | @plainClass c hc tail =>
    have hne : c ≠ x := by
      rintro rfl
      rw [hx] at hc
      cases hc
    have hbracket : c ≠ '[' := by
      rintro rfl
      cases hc
    rw [dropClass_bracket fun _ heq => hne (List.cons.inj heq).1, dropClass_cons_of_ne hbracket]
    exact .plainClass hc _
  | @specialClass c d hc hd hclose tail =>
    rw [dropClass_bracket fun _ heq => hclose (List.cons.inj (List.cons.inj heq).2).1,
      dropClass_cons_of_ne hc, dropClass_cons_of_ne hd]
    exact .specialClass hc hd hclose _

theorem isLiteralPart_eq_false (h : StartsWild text) : isLiteralPart text = false := by
  have hdrop : StartsWild (dropEscapes text) :=
    (((h.dropClass rfl).dropClass rfl).dropClass rfl).dropClass rfl
  rw [isLiteralPart, Bool.not_eq_false', List.any_eq_true]
  generalize dropEscapes text = kept at hdrop
  cases hdrop <;> exact ⟨_, List.mem_cons_self, rfl⟩

/-- What comes from a first wildcard on starts with one, if it is no class that could be taken for
an escape. -/
theorem of_stop {c : Char} {rest : List Char} (hwild : Glob.isWild c = true)
    (hescape : ∀ d more, c = '[' → rest = d :: ']' :: more → isGlobSpecial d = false)
    (hnested : startsNested (c :: rest) = false) : StartsWild (c :: rest) := by
  simp only [Glob.isWild, Bool.or_eq_true, decide_eq_true_eq] at hwild
  rcases hwild with (rfl | rfl) | rfl
  · exact .anyChar rest
  · exact .stars rest
  · rcases rest with _ | ⟨d, _ | ⟨e, more⟩⟩
    · exact .unclosed
    · exact .closesLater d
    · cases hd : isGlobSpecial d with
      | false => exact .plainClass hd _
      | true =>
        refine .specialClass ?_ ?_ ?_ more
        · rintro rfl
          cases hnested
        · rintro rfl
          rw [startsNested, hd] at hnested
          · cases hnested
          · rintro rfl
            cases hnested
        · rintro rfl
          rw [hescape d more rfl rfl] at hd
          cases hd

end StartsWild

/-! ## Parts of joined texts -/

/-- Where two texts meet, the last part of the first one goes on with the first part of the second
one. -/
theorem exists_segments_append (separator : Char) (cs : List Char) :
    ∃ dirs last, segments separator cs = dirs ++ [last] ∧
      ∀ more first rest, segments separator more = first :: rest →
        segments separator (cs ++ more) = dirs ++ (last ++ first) :: rest := by
  induction cs with
  | nil => exact ⟨[], [], rfl, fun more first rest h => h⟩
  | cons c cs ih =>
    obtain ⟨dirs, last, hcs, happend⟩ := ih
    by_cases hc : c = separator
    · refine ⟨[] :: dirs, last, ?_, fun more first rest h => ?_⟩
      · rw [segments, if_pos hc, hcs, List.cons_append]
      · rw [List.cons_append, segments, if_pos hc, happend more first rest h, List.cons_append]
    · cases dirs with
      | nil =>
        refine ⟨[], c :: last, ?_, fun more first rest h => ?_⟩
        · rw [segments, if_neg hc, hcs]
          rfl
        · rw [List.cons_append, segments, if_neg hc, happend more first rest h]
          rfl
      | cons dir dirs =>
        refine ⟨(c :: dir) :: dirs, last, ?_, fun more first rest h => ?_⟩
        · rw [segments, if_neg hc, hcs]
          rfl
        · rw [List.cons_append, segments, if_neg hc, happend more first rest h]
          rfl

theorem segments_append_of_eq {separator : Char} {cs more last first : List Char}
    {dirs rest : List (List Char)} (h : segments separator cs = dirs ++ [last])
    (hmore : segments separator more = first :: rest) :
    segments separator (cs ++ more) = dirs ++ (last ++ first) :: rest := by
  obtain ⟨dirs', last', hcs, happend⟩ := exists_segments_append separator cs
  obtain ⟨rfl, hlast⟩ := List.append_inj' (hcs.symm.trans h) rfl
  cases hlast
  exact happend more first rest hmore

theorem exists_segments_cons (separator : Char) (cs : List Char) :
    ∃ first rest, segments separator cs = first :: rest := by
  cases h : segments separator cs with
  | nil => exact absurd h (segments_ne_nil separator cs)
  | cons first rest => exact ⟨first, rest, rfl⟩

theorem segments_cons_of_ne {c separator : Char} (hc : c ≠ separator) {cs first : List Char}
    {rest : List (List Char)} (h : segments separator cs = first :: rest) :
    segments separator (c :: cs) = (c :: first) :: rest := by
  rw [segments, if_neg hc, h]

/-- The first part of a text starts with the first character, if that is no separator. -/
theorem cases_of_segments_cons {c separator : Char} {tail first : List Char}
    {rest : List (List Char)} (h : segments separator (c :: tail) = first :: rest) :
    c = separator ∧ first = [] ∨
      ∃ inner, segments separator tail = inner :: rest ∧ first = c :: inner := by
  by_cases hc : c = separator
  · rw [segments, if_pos hc] at h
    exact Or.inl ⟨hc, (List.cons.inj h).1.symm⟩
  · obtain ⟨inner, others, htail⟩ := exists_segments_cons separator tail
    rw [segments_cons_of_ne hc htail] at h
    obtain ⟨rfl, rfl⟩ := List.cons.inj h
    exact Or.inr ⟨inner, htail, rfl⟩

/-! ## How specific a pattern is -/

/-- Each part of a text spells some of the characters, and there are as many parts as the
characters have. -/
def SpellsParts (escaped text cs : List Char) : Prop :=
  (segments '/' text).length = (segments '/' cs).length ∧ ∀ part ∈ segments '/' text,
    ∃ cs', Glob.Spells escaped part cs' ∧ ∀ c ∈ cs', c ∈ cs

/-- One more character in front, however it is spelled, belongs to the first part. -/
theorem SpellsParts.append {escaped front text cs : List Char} {c : Char}
    (h : SpellsParts escaped text cs) (hfront : '/' ∉ front) (hc : c ≠ '/')
    (hspells : ∀ text cs, Glob.Spells escaped text cs →
      Glob.Spells escaped (front ++ text) (c :: cs)) :
    SpellsParts escaped (front ++ text) (c :: cs) := by
  obtain ⟨hlength, hparts⟩ := h
  obtain ⟨first, others, htext⟩ := exists_segments_cons '/' text
  obtain ⟨first', others', hcs⟩ := exists_segments_cons '/' cs
  have hsingle : segments '/' front = [] ++ [front] := segments_of_not_mem hfront
  rw [SpellsParts, segments_append_of_eq hsingle htext, segments_cons_of_ne hc hcs]
  rw [htext, hcs] at hlength
  rw [htext] at hparts
  refine ⟨hlength, fun part hpart => ?_⟩
  rcases List.mem_cons.mp hpart with rfl | hpart
  · obtain ⟨cs', hfirst, hsub⟩ := hparts first List.mem_cons_self
    refine ⟨c :: cs', hspells first cs' hfirst, fun d hd => ?_⟩
    rcases List.mem_cons.mp hd with rfl | hd
    · exact List.mem_cons_self
    · exact List.mem_cons_of_mem _ (hsub d hd)
  · obtain ⟨cs', hpart, hsub⟩ := hparts part (List.mem_cons_of_mem _ hpart)
    exact ⟨cs', hpart, fun d hd => List.mem_cons_of_mem _ (hsub d hd)⟩

theorem Glob.Spells.parts {escaped text cs : List Char} (hslash : '/' ∉ escaped)
    (h : Glob.Spells escaped text cs) : SpellsParts escaped text cs := by
  induction h with
  | nil =>
    refine ⟨rfl, fun part hpart => ⟨[], ?_, nofun⟩⟩
    rw [List.mem_singleton.mp hpart]
    exact .nil
  | @plain c text cs hc h ih =>
    by_cases hcut : c = '/'
    · obtain ⟨hlength, hparts⟩ := ih
      rw [SpellsParts, segments, if_pos hcut, segments, if_pos hcut, List.length_cons,
        List.length_cons, hlength]
      refine ⟨rfl, fun part hpart => ?_⟩
      rcases List.mem_cons.mp hpart with rfl | hpart
      · exact ⟨[], .nil, nofun⟩
      · obtain ⟨cs', hspells, hsub⟩ := hparts part hpart
        exact ⟨cs', hspells, fun d hd => List.mem_cons_of_mem _ (hsub d hd)⟩
    · have hfront : '/' ∉ [c] := by simp [Ne.symm hcut]
      exact ih.append hfront hcut fun _ _ => .plain hc
  | @alone c text cs hc h ih =>
    have hcut : c ≠ '/' := fun heq => hslash (heq ▸ hc)
    have hfront : '/' ∉ ['[', c, ']'] := by simp [Ne.symm hcut]
    exact ih.append hfront hcut fun _ _ => .alone hc

/-- The first part of a text that starts with a wildcard starts with it. -/
theorem StartsWild.of_segments {text first : List Char} {rest : List (List Char)}
    (h : StartsWild text) (hparts : segments '/' text = first :: rest) : StartsWild first := by
  have hinner : ∀ {c : Char} {tail : List Char}, c ≠ '/' → text = c :: tail →
      ∃ inner, segments '/' tail = inner :: rest ∧ first = c :: inner := by
    rintro c tail hc rfl
    exact (cases_of_segments_cons hparts).resolve_left fun h => hc h.1
  cases h with
  | anyChar tail =>
    obtain ⟨inner, -, rfl⟩ := hinner (by decide) rfl
    exact .anyChar inner
  | stars tail =>
    obtain ⟨inner, -, rfl⟩ := hinner (by decide) rfl
    exact .stars inner
  | unclosed =>
    cases hparts
    exact .unclosed
  | closesLater c =>
    obtain ⟨inner, hc, rfl⟩ := hinner (by decide) rfl
    rcases cases_of_segments_cons hc with ⟨-, rfl⟩ | ⟨_, hnil, rfl⟩
    · exact .unclosed
    · cases hnil
      exact .closesLater c
  | plainClass hplain tail =>
    obtain ⟨inner, hc, rfl⟩ := hinner (by decide) rfl
    rcases cases_of_segments_cons hc with ⟨-, rfl⟩ | ⟨inner', -, rfl⟩
    · exact .unclosed
    · exact .plainClass hplain inner'
  | @specialClass c d hc hd hclose tail =>
    obtain ⟨inner, hc', rfl⟩ := hinner (by decide) rfl
    rcases cases_of_segments_cons hc' with ⟨-, rfl⟩ | ⟨inner', hd', rfl⟩
    · exact .unclosed
    · rcases cases_of_segments_cons hd' with ⟨-, rfl⟩ | ⟨inner'', -, rfl⟩
      · exact .closesLater c
      · exact .specialClass hc hd hclose inner''

/-- A pattern is as specific as it has literal parts, if no brace and no class misleads. -/
theorem Counted.specificity_eq {pattern : String} (h : Counted pattern) :
    specificity pattern = literalParts pattern := by
  obtain ⟨text, htext, hspells⟩ := exists_opening pattern.toList
  obtain ⟨hlength, hparts⟩ := hspells.parts (by decide)
  have hliteral : ∀ part ∈ segments '/' text, isLiteralPart part = true := by
    intro part hpart
    obtain ⟨cs', hpart, hsub⟩ := hparts part hpart
    have hbrace : openBrace ∉ cs' := fun hmem => h.brace (hsub _ hmem)
    rw [← List.append_nil part, isLiteralPart_append hpart, decide_eq_true hbrace]
    rfl
  cases hrest : (opening pattern.toList).2 with
  | nil =>
    rw [hrest, List.append_nil] at htext
    rw [literalParts, hrest, if_pos rfl, ← hlength, specificity, specificityOf, htext,
      List.takeWhile_eq_self_iff.mpr hliteral]
  | cons c rest =>
    -- The part with the wildcard is not literal, and ends those that count.
    obtain ⟨hwild, hescape⟩ := opening_stops pattern.toList c rest hrest
    have hnested := h.nested
    rw [hrest] at htext hnested
    have hstarts := StartsWild.of_stop hwild hescape hnested
    obtain ⟨dirs, last, hdirs, happend⟩ := exists_segments_append '/' text
    obtain ⟨first, others, hfirst⟩ := exists_segments_cons '/' (c :: rest)
    rw [hdirs] at hlength hliteral hparts
    obtain ⟨hdirs', -⟩ := List.forall_mem_append.mp hliteral
    obtain ⟨cs', hlast, -⟩ := hparts last (by simp)
    have hstop : ¬isLiteralPart (last ++ first) = true := by
      rw [isLiteralPart_append hlast, (hstarts.of_segments hfirst).isLiteralPart_eq_false,
        Bool.and_false]
      exact Bool.false_ne_true
    have hcount : literalParts pattern = dirs.length := by
      rw [literalParts, hrest, if_neg (List.cons_ne_nil _ _), ← hlength, List.length_append]
      rfl
    rw [hcount, specificity, specificityOf, htext, happend _ _ _ hfirst,
      List.takeWhile_append_of_pos hdirs', List.takeWhile_cons_of_neg hstop, List.append_nil]

-- What is left of a class when one escape is taken out of it may be another escape, and a brace is
-- taken for a wildcard.
example : specificity "[[*]?]/b" = 2 ∧ literalParts "[[*]?]/b" = 0 := by decide +kernel

example : specificity "\x7ba\x7d/b" = 0 ∧ literalParts "\x7ba\x7d/b" = 2 := by decide +kernel

end LintFront
