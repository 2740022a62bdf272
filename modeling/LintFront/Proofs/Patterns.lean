import LintFront.Glob.Basic

/-!
# Patterns inside a directory

A directory's name may hold any character that has a meaning in patterns. Escaped, it is matched as
it stands, and what follows the slash behind it is a pattern of its own.

* `Glob.Spells`: texts of patterns that are matched as they stand.
* `Glob.Spells.exists_tokens`: what such a text is read as matches its characters and nothing else.
* `globMatches_spelled_iff`: a pattern that starts with such a text matches what starts with the
  characters, if the rest of the pattern matches the rest.
* `globMatches_inside_iff`: a pattern inside a directory matches the paths inside it that the
  pattern matches.
* `globMatches_everything`: the pattern of two stars matches every path.
-/

namespace LintFront

/-- The characters that are escaped, in the order in which their escapes are taken out. -/
def globSpecials : List Char := ['*', '?', '[', ']']

theorem mem_globSpecials_iff {c : Char} : c ∈ globSpecials ↔ isGlobSpecial c = true := by
  simp [globSpecials, isGlobSpecial, or_assoc, or_left_comm]

theorem escapeChars_cons_special {c : Char} (h : isGlobSpecial c = true) (cs : List Char) :
    escapeChars (c :: cs) = '[' :: c :: ']' :: escapeChars cs := by
  simp [escapeChars, h]

theorem escapeChars_cons_plain {c : Char} (h : isGlobSpecial c = false) (cs : List Char) :
    escapeChars (c :: cs) = c :: escapeChars cs := by
  simp [escapeChars, h]

namespace Glob

/-- Whether a wildcard can start with a character. -/
def isWild (c : Char) : Bool := c = '?' || c = '*' || c = '['

theorem isWild_eq_false {c : Char} (h : isGlobSpecial c = false) : isWild c = false := by
  simp only [isGlobSpecial, Bool.or_eq_false_iff] at h
  rw [isWild, h.1.1.1, h.1.1.2, h.1.2]
  rfl

/-- The text of a pattern spells some characters: each one by itself, if no wildcard can start with
it, or alone in a class, if it is one of the escaped ones. -/
inductive Spells (escaped : List Char) : List Char → List Char → Prop
  | nil : Spells escaped [] []
  | plain {c : Char} {text cs : List Char} (hc : isWild c = false) (h : Spells escaped text cs) :
      Spells escaped (c :: text) (c :: cs)
  | alone {c : Char} {text cs : List Char} (hc : c ∈ escaped) (h : Spells escaped text cs) :
      Spells escaped ('[' :: c :: ']' :: text) (c :: cs)

theorem spells_escapeChars (cs : List Char) : Spells globSpecials (escapeChars cs) cs := by
  induction cs with
  | nil => exact .nil
  | cons c cs ih =>
    cases hc : isGlobSpecial c with
    | true =>
      rw [escapeChars_cons_special hc]
      exact .alone (mem_globSpecials_iff.mpr hc) ih
    | false =>
      rw [escapeChars_cons_plain hc]
      exact .plain (isWild_eq_false hc) ih

/-! ## Reading -/

/-- A character that is put in a class is read as a class of its own, wherever it stands. -/
theorem parseFrom_class {c : Char} (h : isGlobSpecial c = true) (atPart : Bool) (rest : List Char) :
    parseFrom (.between atPart) ('[' :: c :: ']' :: rest) =
      (parseFrom (.between false) rest).map (.oneOf false [.single c] :: ·) := by
  simp only [isGlobSpecial, Bool.or_eq_true, decide_eq_true_eq] at h
  rcases h with ((rfl | rfl) | rfl) | rfl <;> simp [parseFrom, classItems]

theorem parseFrom_char {c : Char} (h : isWild c = false) (atPart : Bool) (rest : List Char) :
    parseFrom (.between atPart) (c :: rest) =
      (parseFrom (.between (c = '/')) rest).map (.char c :: ·) := by
  simp only [isWild, Bool.or_eq_false_iff, decide_eq_false_iff_not] at h
  obtain ⟨⟨hany, hstar⟩, hopen⟩ := h
  rw [parseFrom] <;> simp_all

/-- Whether a part starts behind some characters depends on the last one. -/
theorem elim_getLast?_cons (c : Char) (cs : List Char) (atPart : Bool) :
    (c :: cs).getLast?.elim atPart (fun d => decide (d = '/')) =
      cs.getLast?.elim (decide (c = '/')) (fun d => decide (d = '/')) := by
  rw [List.getLast?_cons]
  cases cs.getLast? <;> rfl

/-! ## Matching -/

/-- Tokens match some characters and nothing else, and what follows them matches the rest. -/
def MatchOnly (tokens : List Token) (cs : List Char) : Prop :=
  ∀ more path, accepts (tokens ++ more) path = true ↔
    ∃ inside, path = cs ++ inside ∧ accepts more inside = true

theorem matchOnly_nil : MatchOnly [] [] := by
  intro more path
  simp

/-- A token that can take a character takes one, and the other tokens match the rest. -/
theorem accepts_cons_of_takesChar {t : Token} {c : Char} (h : takesChar c t = true)
    (tokens : List Token) (path : List Char) :
    accepts (t :: tokens) path =
      match path with
      | d :: rest => takesChar d t && accepts tokens rest
      | [] => false := by
  cases t with
  | anySequence => cases h
  | anyParts => cases h
  | _ => cases path <;> simp [accepts]

/-- A token that takes one character only matches a path that starts with it. -/
theorem accepts_cons_iff {t : Token} {c : Char} (h : ∀ d, takesChar d t = decide (d = c))
    (tokens : List Token) (path : List Char) :
    accepts (t :: tokens) path = true ↔ ∃ rest, path = c :: rest ∧ accepts tokens rest = true := by
  have hself : takesChar c t = true := by rw [h, decide_eq_true rfl]
  rw [accepts_cons_of_takesChar hself]
  cases path with
  | nil => simp
  | cons d rest =>
    simp only [h, Bool.and_eq_true, decide_eq_true_eq, List.cons.injEq]
    constructor
    · rintro ⟨rfl, hrest⟩
      exact ⟨rest, ⟨rfl, rfl⟩, hrest⟩
    · rintro ⟨_, ⟨rfl, rfl⟩, hrest⟩
      exact ⟨rfl, hrest⟩

theorem MatchOnly.cons {t : Token} {c : Char} (ht : ∀ d, takesChar d t = decide (d = c))
    {tokens : List Token} {cs : List Char} (h : MatchOnly tokens cs) :
    MatchOnly (t :: tokens) (c :: cs) := by
  intro more path
  rw [List.cons_append, accepts_cons_iff ht]
  constructor
  · rintro ⟨_, rfl, hrest⟩
    obtain ⟨inside, rfl, hinside⟩ := (h more _).mp hrest
    exact ⟨inside, rfl, hinside⟩
  · rintro ⟨inside, rfl, hinside⟩
    exact ⟨cs ++ inside, rfl, (h more _).mpr ⟨inside, rfl, hinside⟩⟩

theorem takesChar_alone {c : Char} (h : isGlobSpecial c = true) (d : Char) :
    takesChar d (.oneOf false [.single c]) = decide (d = c) := by
  -- None of the special characters is a slash.
  have hslash : c ≠ '/' := by
    rintro rfl
    cases h
  by_cases hd : d = c <;> simp [takesChar, holds, hd, hslash]

/-- A text that spells characters is read as tokens that match the characters, whatever stands
behind it. What follows stands at the start of a part if the last character is a slash. -/
theorem Spells.exists_tokens {text cs : List Char} (h : Spells globSpecials text cs) :
    ∃ tokens, MatchOnly tokens cs ∧ ∀ atPart rest, parseFrom (.between atPart) (text ++ rest) =
      (parseFrom (.between (cs.getLast?.elim atPart (· = '/'))) rest).map (tokens ++ ·) := by
  induction h with
  | nil => exact ⟨[], matchOnly_nil, fun atPart rest => (congrFun Option.map_id _).symm⟩
  | @plain c text cs hc _ ih =>
    obtain ⟨tokens, honly, hparse⟩ := ih
    refine ⟨.char c :: tokens, honly.cons fun _ => rfl, fun atPart rest => ?_⟩
    rw [List.cons_append, parseFrom_char hc, hparse, Option.map_map, elim_getLast?_cons]
    rfl
  | @alone c text cs hc _ ih =>
    obtain ⟨tokens, honly, hparse⟩ := ih
    have hspecial : isGlobSpecial c = true := mem_globSpecials_iff.mp hc
    have hslash : c ≠ '/' := by
      rintro rfl
      cases hspecial
    refine ⟨.oneOf false [.single c] :: tokens, honly.cons (takesChar_alone hspecial),
      fun atPart rest => ?_⟩
    rw [List.cons_append, List.cons_append, List.cons_append, parseFrom_class hspecial, hparse,
      Option.map_map, elim_getLast?_cons, decide_eq_false hslash]
    rfl

theorem afterSlash_isEmpty (path : List Char) : afterSlash (accepts []) path = true := by
  induction path with
  | nil => rfl
  | cons c rest ih =>
    rw [afterSlash, ih]
    simp

end Glob

/-! ## Patterns as texts -/

/-- A pattern that starts with a text that spells some characters matches what starts with them, if
the rest of the pattern matches the rest. -/
theorem globMatches_spelled_iff {pattern path : String} {text cs rest : List Char}
    (hpattern : pattern.toList = text ++ rest) (h : Glob.Spells globSpecials text cs) :
    globMatches pattern path = true ↔ ∃ tokens inside,
      Glob.parseFrom (.between (cs.getLast?.elim true (· = '/'))) rest = some tokens ∧
        path.toList = cs ++ inside ∧ Glob.accepts tokens inside = true := by
  obtain ⟨literals, honly, hparse⟩ := h.exists_tokens
  rw [globMatches, Glob.parse?, hpattern, hparse]
  cases Glob.parseFrom (.between (cs.getLast?.elim true (· = '/'))) rest with
  | none => simp
  | some tokens =>
    rw [Option.map_some]
    refine (honly tokens path.toList).trans ⟨?_, ?_⟩
    · rintro ⟨inside, hinside, h⟩
      exact ⟨tokens, inside, rfl, hinside, h⟩
    · rintro ⟨_, inside, ⟨⟩, hinside, h⟩
      exact ⟨inside, hinside, h⟩

/-- A pattern inside a directory matches the paths inside it that the pattern matches. -/
theorem globMatches_inside_iff (dir pattern path : String) :
    globMatches (globEscape dir ++ "/" ++ pattern) path = true ↔
      ∃ rest, path = dir ++ "/" ++ rest ∧ globMatches pattern rest = true := by
  have hchars : (globEscape dir ++ "/" ++ pattern).toList =
      escapeChars (dir.toList ++ ['/']) ++ pattern.toList := by
    simp [globEscape, escapeChars, isGlobSpecial]
  have hpath : ∀ rest : String, path = dir ++ "/" ++ rest ↔
      path.toList = dir.toList ++ ['/'] ++ rest.toList := by
    intro rest
    rw [← String.toList_inj]
    simp
  have hinside : ∀ rest : String, globMatches pattern rest = true ↔
      ∃ tokens, Glob.parseFrom (.between true) pattern.toList = some tokens ∧
        Glob.accepts tokens rest.toList = true := by
    intro rest
    rw [globMatches, Glob.parse?]
    cases Glob.parseFrom (.between true) pattern.toList <;> simp
  rw [globMatches_spelled_iff hchars (Glob.spells_escapeChars _), List.getLast?_concat]
  simp only [hpath, hinside]
  constructor
  · rintro ⟨tokens, inside, htokens, hrest, h⟩
    exact ⟨String.ofList inside, by simpa using hrest, tokens, htokens, by simpa using h⟩
  · rintro ⟨rest, hrest, tokens, htokens, h⟩
    exact ⟨tokens, rest.toList, htokens, hrest, h⟩

/-- The pattern of two stars matches every path. -/
theorem globMatches_everything (path : String) : globMatches "**" path = true := by
  have hparse : Glob.parse? "**".toList = some [.anyParts] := by decide
  rw [globMatches, hparse]
  show (Glob.accepts [] path.toList || Glob.afterSlash (Glob.accepts []) path.toList) = true
  rw [Glob.afterSlash_isEmpty, Bool.or_true]

end LintFront
