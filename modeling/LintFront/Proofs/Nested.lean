import LintFront.Proofs.Contributions
import LintFront.Proofs.Rerooted

/-!
# Nested patterns

Of two scopes of which one matches fewer files than the other, the more specific one decides: the
one with more leading parts without a wildcard, or else the one that is listed later. These parts
stand for what all files of the scope have in common, unless the first wildcard is a class that
takes one character only. So the narrower scope never has fewer of them. It decides wherever it is
listed if its files have more in common than those of the wider one, and otherwise only if it is
listed later.

* `Matches`, `Narrower`: the files of a pattern, and patterns with fewer files than others.
* `Fixes`, `Closer`: leading parts that all files of a pattern have in common, and patterns whose
  files have more of them in common than those of others.
* `Varied`: patterns whose first wildcard takes more than one character, if it is a class.
* `fixes_iff`: such patterns fix as many parts as they have literal ones.
* `Prevails`: patterns with more literal parts than others, or as many and listed later.
* `NestedScopes`: two scopes, one narrower than the other, that alone set a key for a file.
* `ResolvedConfig.severityOf_nested`: which of two nested scopes decides.
* `NestedScopes.severityOf_inside`: of two directories the inner one decides.
-/

namespace LintFront

open scoped List

/-! ## Wildcards -/

namespace Glob

/-- A class that takes two characters of a path part, at least. -/
def TakesTwo (t : Token) : Prop :=
  ∃ c d, c ≠ d ∧ (c ≠ '\\' ∧ d ≠ '\\') ∧ takesChar c t = true ∧ takesChar d t = true

/-- Tokens that accept two texts which differ in their first character and nowhere else. -/
def Varies (tokens : List Token) : Prop :=
  ∃ c d tail, c ≠ d ∧ (c ≠ '/' ∧ d ≠ '/') ∧ '\\' ∉ c :: d :: tail ∧
    accepts tokens (c :: tail) = true ∧ accepts tokens (d :: tail) = true

theorem exists_parseFrom_inClass {negated : Bool} {body cs : List Char} {tokens : List Token}
    (h : parseFrom (.inClass negated body) cs = some tokens) :
    ∃ items rest, tokens = .oneOf negated items :: rest := by
  induction cs generalizing body with
  | nil => cases h
  | cons c cs ih =>
    rw [parseFrom] at h
    split at h
    · obtain ⟨rest, -, rfl⟩ := Option.map_eq_some_iff.mp h
      exact ⟨_, rest, rfl⟩
    · exact ih h

theorem exists_parseFrom_bracket {atPart : Bool} {tail : List Char} {tokens : List Token}
    (h : parseFrom (.between atPart) ('[' :: tail) = some tokens) :
    ∃ negated items rest, tokens = .oneOf negated items :: rest := by
  generalize hplace : Place.between atPart = place at h
  generalize htext : '[' :: tail = text at h
  unfold parseFrom at h
  split at h <;> cases hplace <;> cases htext
  · obtain ⟨items, rest, rfl⟩ := exists_parseFrom_inClass h
    exact ⟨true, items, rest, rfl⟩
  · obtain ⟨items, rest, rfl⟩ := exists_parseFrom_inClass h
    exact ⟨false, items, rest, rfl⟩
  · contradiction

/-- A star is read as one of the two wildcards that stand for more than one character. -/
theorem exists_parseFrom_star {atPart : Bool} {tail : List Char} {tokens : List Token}
    (h : parseFrom (.between atPart) ('*' :: tail) = some tokens) :
    ∃ t rest, tokens = t :: rest ∧ (t = .anySequence ∨ t = .anyParts) := by
  generalize hplace : Place.between atPart = place at h
  generalize htext : '*' :: tail = text at h
  unfold parseFrom at h
  split at h <;> cases hplace <;> cases htext
  · cases h
  · split at h
    · obtain ⟨rest, -, rfl⟩ := Option.map_eq_some_iff.mp h
      exact ⟨_, rest, rfl, Or.inr rfl⟩
    · cases h
  · split at h
    · cases h
      exact ⟨_, [], rfl, Or.inr rfl⟩
    · cases h
  · cases h
  · obtain ⟨rest, -, rfl⟩ := Option.map_eq_some_iff.mp h
    exact ⟨_, rest, rfl, Or.inl rfl⟩
  · contradiction

/-- Only a slash takes a slash, and it takes nothing else. -/
theorem TakesTwo.ne_slash {t : Token} {c d : Char} (hne : c ≠ d) (hc : takesChar c t = true)
    (hd : takesChar d t = true) : c ≠ '/' ∧ d ≠ '/' := by
  cases t with
  | char e =>
    have hce : c = e := by simpa [takesChar] using hc
    have hde : d = e := by simpa [takesChar] using hd
    exact absurd (hce.trans hde.symm) hne
  | anyChar => exact ⟨by simpa [takesChar] using hc, by simpa [takesChar] using hd⟩
  | oneOf negated items =>
    simp only [takesChar, Bool.and_eq_true, bne_iff_ne] at hc hd
    exact ⟨hc.1, hd.1⟩
  | anySequence => cases hc
  | anyParts => cases hc

theorem Varies.of_takesTwo {t : Token} {tokens : List Token} {path : List Char} (ht : TakesTwo t)
    (h : accepts (t :: tokens) path = true) (hslashed : '\\' ∉ path) : Varies (t :: tokens) := by
  obtain ⟨c, d, hne, ⟨hback, hback'⟩, hc, hd⟩ := ht
  rw [accepts_cons_of_takesChar hc] at h
  cases path with
  | nil => cases h
  | cons e rest =>
    obtain ⟨-, hrest⟩ := Bool.and_eq_true_iff.mp h
    refine ⟨c, d, rest, hne, TakesTwo.ne_slash hne hc hd, ?_, ?_, ?_⟩
    · simp only [List.mem_cons, not_or] at hslashed ⊢
      exact ⟨hback.symm, hback'.symm, hslashed.2⟩
    · rw [accepts_cons_of_takesChar hc]
      exact Bool.and_eq_true_iff.mpr ⟨hc, hrest⟩
    · rw [accepts_cons_of_takesChar hd]
      exact Bool.and_eq_true_iff.mpr ⟨hd, hrest⟩

/-- A run of characters may have one more, and whole parts may have one more before them. -/
theorem Varies.of_stars {t : Token} (ht : t = .anySequence ∨ t = .anyParts) {tokens : List Token}
    {path : List Char} (h : accepts (t :: tokens) path = true) (hslashed : '\\' ∉ path) :
    Varies (t :: tokens) := by
  rcases ht with rfl | rfl
  · have hmore : ∀ c, c ≠ '/' → accepts (.anySequence :: tokens) (c :: path) = true := by
      intro c hc
      rw [accepts] at h ⊢
      rw [withinPart, h, Bool.and_true, Bool.or_eq_true]
      exact Or.inr (by simpa using hc)
    refine ⟨'a', 'b', path, by decide, by decide, ?_, hmore _ (by decide), hmore _ (by decide)⟩
    simpa using hslashed
  · have hmore : ∀ c, c ≠ '/' → accepts (.anyParts :: tokens) (c :: '/' :: path) = true := by
      intro c hc
      rw [accepts] at h ⊢
      rw [afterSlash, if_neg hc, afterSlash, if_pos rfl, h, Bool.or_true]
    refine ⟨'a', 'b', '/' :: path, by decide, by decide, ?_, hmore _ (by decide),
      hmore _ (by decide)⟩
    simpa using hslashed

/-- Tokens that start with a wildcard accept two texts that differ in their first character, if they
accept any text at all. -/
theorem varies_of_isWild {atPart : Bool} {c : Char} {text path : List Char} {tokens : List Token}
    (hwild : isWild c = true) (h : parseFrom (.between atPart) (c :: text) = some tokens)
    (htwo : ∀ negated items rest, tokens = .oneOf negated items :: rest →
      TakesTwo (.oneOf negated items))
    (hpath : accepts tokens path = true) (hslashed : '\\' ∉ path) : Varies tokens := by
  simp only [isWild, Bool.or_eq_true, decide_eq_true_eq] at hwild
  rcases hwild with (rfl | rfl) | rfl
  · rw [parseFrom] at h
    obtain ⟨rest, -, rfl⟩ := Option.map_eq_some_iff.mp h
    exact .of_takesTwo ⟨'a', 'b', by decide, by decide, by decide, by decide⟩ hpath hslashed
  · obtain ⟨t, rest, rfl, ht⟩ := exists_parseFrom_star h
    exact .of_stars ht hpath hslashed
  · obtain ⟨negated, items, rest, rfl⟩ := exists_parseFrom_bracket h
    exact .of_takesTwo (htwo negated items rest rfl) hpath hslashed

end Glob

/-! ## What the files of a pattern have in common -/

/-- A pattern matches the file at a path. -/
def Matches (pattern path : String) : Prop :=
  globMatches pattern (ResolvedConfig.slashed path) = true

instance (pattern path : String) : Decidable (Matches pattern path) :=
  inferInstanceAs (Decidable (_ = true))

/-- A pattern matches fewer files than another one. -/
structure Narrower (narrow wide : String) : Prop where
  subset : ∀ path, Matches narrow path → Matches wide path
  strict : ∃ path, Matches wide path ∧ ¬ Matches narrow path

/-- All files of a pattern have their first parts in common, this many at least. -/
def Fixes (pattern : String) (n : Nat) : Prop :=
  ∃ parts : List String, parts.length = n ∧
    ∀ path, Matches pattern path → parts <+: segmentsOf (ResolvedConfig.slashed path)

theorem Fixes.mono {narrow wide : String} (h : ∀ path, Matches narrow path → Matches wide path)
    {n : Nat} (hn : Fixes wide n) : Fixes narrow n := by
  obtain ⟨parts, hlength, hparts⟩ := hn
  exact ⟨parts, hlength, fun path hpath => hparts path (h path hpath)⟩

/-- The first wildcard of a pattern takes two characters at least, if it is a class. -/
def Varied (pattern : String) : Prop :=
  ∀ atPart negated items rest,
    Glob.parseFrom (.between atPart) (opening pattern.toList).2 =
      some (.oneOf negated items :: rest) → Glob.TakesTwo (.oneOf negated items)

/-- Stars are no class. -/
theorem Varied.of_star {pattern : String}
    (h : (opening pattern.toList).2.head? = some '*') : Varied pattern := by
  intro atPart negated items rest htokens
  obtain ⟨tail, htail⟩ := List.head?_eq_some_iff.mp h
  rw [htail] at htokens
  obtain ⟨t, more, heq, ht⟩ := Glob.exists_parseFrom_star htokens
  obtain ⟨rfl, -⟩ := List.cons.inj heq
  rcases ht with ht | ht <;> cases ht

theorem not_mem_slashed (path : String) : '\\' ∉ (ResolvedConfig.slashed path).toList := by
  rw [ResolvedConfig.slashed, String.toList_map, List.mem_map]
  rintro ⟨c, -, hc⟩
  split at hc
  · cases hc
  · contradiction

section Opening

variable {pattern : String} {cs text : List Char} (hopening : opening pattern.toList = (cs, text))

include hopening

/-- What a pattern matches starts with the characters before its first wildcard, and the rest of the
pattern matches what follows them. -/
theorem matches_iff {path : String} : Matches pattern path ↔ ∃ tokens inside,
    Glob.parseFrom (.between (cs.getLast?.elim true (· = '/'))) text = some tokens ∧
      (ResolvedConfig.slashed path).toList = cs ++ inside ∧ Glob.accepts tokens inside = true := by
  obtain ⟨front, hpattern, hspells⟩ := exists_opening pattern.toList
  rw [hopening] at hpattern hspells
  exact globMatches_spelled_iff hpattern hspells

theorem matches_of_accepts {other : List Char} {tokens : List Token}
    (htokens : Glob.parseFrom (.between (cs.getLast?.elim true (· = '/'))) text = some tokens)
    (haccepts : Glob.accepts tokens other = true) (hslashed : '\\' ∉ cs ++ other) :
    Matches pattern (String.ofList (cs ++ other)) := by
  refine (matches_iff hopening).mpr ⟨tokens, other, htokens, ?_, haccepts⟩
  rw [slashed_eq_self, String.toList_ofList]
  rwa [String.toList_ofList]

/-! ## Literal parts -/

theorem literalParts_eq : literalParts pattern =
    if text = [] then (segments '/' cs).length else (segments '/' cs).length - 1 := by
  rw [literalParts, hopening]

/-- A pattern without wildcards matches one text, so all of its parts are fixed. -/
theorem fixes_iff_of_literal (htext : text = []) {file : String} (hfile : Matches pattern file)
    {n : Nat} : Fixes pattern n ↔ n ≤ (segments '/' cs).length := by
  subst htext
  have hall : ∀ path, Matches pattern path →
      segmentsOf (ResolvedConfig.slashed path) = (segments '/' cs).map String.ofList := by
    intro path hpath
    obtain ⟨tokens, inside, htokens, hinside, haccepts⟩ := (matches_iff hopening).mp hpath
    cases htokens
    obtain rfl : inside = [] := List.isEmpty_iff.mp haccepts
    rw [segmentsOf, hinside, List.append_nil]
  constructor
  · rintro ⟨parts, rfl, hparts⟩
    have hlength := (hparts file hfile).length_le
    rwa [hall file hfile, List.length_map] at hlength
  · intro hn
    refine ⟨((segments '/' cs).map String.ofList).take n, ?_, fun path hpath => ?_⟩
    · rw [List.length_take, List.length_map]
      omega
    · rw [hall path hpath]
      exact List.take_prefix _ _

variable {last : List Char} {dirs : List (List Char)} (hdirs : segments '/' cs = dirs ++ [last])

include hdirs

/-- The parts before that of the first wildcard are fixed. -/
theorem fixes_of_le {n : Nat} (hn : n ≤ dirs.length) : Fixes pattern n := by
  refine ⟨(dirs.take n).map String.ofList, ?_, fun path hpath => ?_⟩
  · rw [List.length_map, List.length_take]
    omega
  · obtain ⟨tokens, inside, -, hinside, -⟩ := (matches_iff hopening).mp hpath
    obtain ⟨first, rest, hfirst⟩ := exists_segments_cons '/' inside
    rw [segmentsOf, hinside, segments_append_of_eq hdirs hfirst]
    exact ((List.take_prefix n dirs).trans (List.prefix_append _ _)).map _

/-- The part of the first wildcard is not fixed, since two files differ there. -/
theorem Fixes.le_of_varies {tokens : List Token} {n : Nat} (h : Fixes pattern n)
    (htokens : Glob.parseFrom (.between (cs.getLast?.elim true (· = '/'))) text = some tokens)
    (hcs : '\\' ∉ cs) (hvaries : Glob.Varies tokens) : n ≤ dirs.length := by
  obtain ⟨parts, rfl, hparts⟩ := h
  obtain ⟨c, d, tail, hne, ⟨hc, hd⟩, htail, hmatch, hmatch'⟩ := hvaries
  simp only [List.mem_cons, not_or] at htail
  obtain ⟨hback, hback', htail⟩ := htail
  obtain ⟨first, rest, hfirst⟩ := exists_segments_cons '/' tail
  refine Nat.le_of_not_lt fun hlong => ?_
  have hpart : ∀ e, e ≠ '/' → '\\' ≠ e → Glob.accepts tokens (e :: tail) = true →
      parts[dirs.length]? = some (String.ofList (last ++ e :: first)) := by
    intro e he hplain haccept
    have hother : '\\' ∉ cs ++ e :: tail := by
      simp only [List.mem_append, List.mem_cons, not_or]
      exact ⟨hcs, hplain, htail⟩
    have hshared := hparts _ (matches_of_accepts hopening htokens haccept hother)
    rw [slashed_eq_self (by rwa [String.toList_ofList]), segmentsOf, String.toList_ofList,
      segments_append_of_eq hdirs (segments_cons_of_ne he hfirst)] at hshared
    obtain ⟨more, hmore⟩ := hshared
    have hget : (parts ++ more)[dirs.length]? = parts[dirs.length]? :=
      List.getElem?_append_left hlong
    rw [← hget, hmore, List.getElem?_map, List.getElem?_append_right (Nat.le_refl _),
      Nat.sub_self]
    rfl
  have hfile := hpart c hc hback hmatch
  have hfile' := hpart d hd hback' hmatch'
  have hsame := String.ofList_injective (Option.some.inj (hfile.symm.trans hfile'))
  exact hne (List.head_eq_of_cons_eq (List.append_cancel_left hsame))

end Opening

/-- A varied pattern that matches a file fixes as many parts as it has literal ones. -/
theorem fixes_iff {pattern : String} (h : Varied pattern) {file : String}
    (hfile : Matches pattern file) {n : Nat} : Fixes pattern n ↔ n ≤ literalParts pattern := by
  rcases hopening : opening pattern.toList with ⟨cs, text⟩
  rw [literalParts_eq hopening]
  cases text with
  | nil => exact fixes_iff_of_literal hopening rfl hfile
  | cons c text =>
    obtain ⟨dirs, last, hdirs, -⟩ := exists_segments_append '/' cs
    have hcount : (segments '/' cs).length - 1 = dirs.length := by
      rw [hdirs, List.length_append]
      rfl
    rw [if_neg (List.cons_ne_nil _ _), hcount]
    refine ⟨fun hn => ?_, fixes_of_le hopening hdirs⟩
    obtain ⟨tokens, inside, htokens, hinside, haccepts⟩ := (matches_iff hopening).mp hfile
    have hslashed : '\\' ∉ cs ++ inside := hinside ▸ not_mem_slashed file
    obtain ⟨hcs, hback⟩ := not_or.mp (List.mem_append.not.mp hslashed)
    obtain ⟨hwild, -⟩ := opening_stops pattern.toList c text (by rw [hopening])
    apply hn.le_of_varies hopening hdirs htokens hcs
    apply Glob.varies_of_isWild hwild htokens _ haccepts hback
    intro negated items rest heq
    exact h _ negated items rest (by rw [hopening, htokens, heq])

namespace Narrower

variable {narrow wide : String}

theorem ne (h : Narrower narrow wide) : narrow ≠ wide := by
  rintro rfl
  obtain ⟨path, hmatch, hnot⟩ := h.strict
  exact hnot hmatch

/-- A pattern that matches fewer files has as many literal parts at least. -/
theorem literalParts_le (h : Narrower narrow wide) (hnarrow : Varied narrow) (hwide : Varied wide)
    {file : String} (hfile : Matches narrow file) : literalParts wide ≤ literalParts narrow :=
  (fixes_iff hnarrow hfile).mp
    (((fixes_iff hwide (h.subset file hfile)).mpr (Nat.le_refl _)).mono h.subset)

end Narrower

/-- The files of one pattern have more parts in common than those of another one. -/
def Closer (narrow wide : String) : Prop := ∃ n, Fixes narrow n ∧ ¬ Fixes wide n

theorem closer_iff {narrow wide : String} (hnarrow : Varied narrow) (hwide : Varied wide)
    {file : String} (hfile : Matches narrow file) (hfile' : Matches wide file) :
    Closer narrow wide ↔ literalParts wide < literalParts narrow := by
  simp only [Closer, fixes_iff hnarrow hfile, fixes_iff hwide hfile']
  constructor
  · rintro ⟨n, hn, hn'⟩
    omega
  · exact fun hlt => ⟨literalParts narrow, Nat.le_refl _, Nat.not_le_of_lt hlt⟩

/-- One pattern has more literal parts than another one, or as many and is listed later. -/
def Prevails (patterns : List String) (p q : String) : Prop :=
  literalParts q < literalParts p ∨ literalParts p = literalParts q ∧ [q, p] <+ patterns

/-- Patterns are ranked by their literal parts, if these are counted as such. -/
theorem outranks_iff_prevails {p q : String} (hp : Counted p) (hq : Counted q)
    (patterns : List String) : Outranks patterns p q ↔ Prevails patterns p q := by
  rw [Outranks, Prevails, hp.specificity_eq, hq.specificity_eq]

/-! ## Nested scopes -/

/-- Two scopes alone set a key for a file, and one of them matches fewer files than the other. -/
structure NestedScopes (c : ResolvedConfig) (path key narrow wide : String) (x y : Severity) :
    Prop where
  wellFormed : c.WellFormed
  narrower : Narrower narrow wide
  matched : Matches narrow path
  narrow_eq : scopeSeverity c.scopes key narrow = some x
  wide_eq : scopeSeverity c.scopes key wide = some y
  only : ∀ other, Matches other path → (scopeSeverity c.scopes key other).isSome →
    other = narrow ∨ other = wide

namespace NestedScopes

variable {c : ResolvedConfig} {path key narrow wide : String} {x y : Severity}

/-- The severity comes from one of the two scopes, which goes before the other one. -/
theorem exists_first (h : NestedScopes c path key narrow wide x y) :
    (c.scopeFor path).severityOf key = some x ∧ Outranks (Table.names c.scopes) narrow wide ∨
      (c.scopeFor path).severityOf key = some y ∧ Outranks (Table.names c.scopes) wide narrow := by
  have hnarrow : (scopeSeverity c.scopes key narrow).isSome :=
    Option.isSome_of_eq_some h.narrow_eq
  have hwide : (scopeSeverity c.scopes key wide).isSome := Option.isSome_of_eq_some h.wide_eq
  have hset := ResolvedConfig.isSome_severityOf_scopeFor h.wellFormed.scope h.matched hnarrow
  obtain ⟨s, hs⟩ := Option.isSome_iff_exists.mp hset
  obtain ⟨first, hmatch, hvalue, hothers⟩ :=
    ResolvedConfig.exists_first_scope h.wellFormed.distinct h.wellFormed.scope hs
  change scopeSeverity c.scopes key first = some s at hvalue
  rcases h.only first hmatch (Option.isSome_of_eq_some hvalue) with hfirst | hfirst
  · subst hfirst
    refine Or.inl ⟨by rw [hs, ← hvalue, h.narrow_eq], ?_⟩
    exact (hothers wide (h.narrower.subset path h.matched) hwide).resolve_left h.narrower.ne.symm
  · subst hfirst
    refine Or.inr ⟨by rw [hs, ← hvalue, h.wide_eq], ?_⟩
    exact (hothers narrow h.matched hnarrow).resolve_left h.narrower.ne

theorem severityOf_of_outranks (h : NestedScopes c path key narrow wide x y)
    (hrank : Outranks (Table.names c.scopes) narrow wide) :
    (c.scopeFor path).severityOf key = some x := by
  rcases h.exists_first with ⟨hx, -⟩ | ⟨-, hrank'⟩
  · exact hx
  · exact absurd hrank' (hrank.asymm h.wellFormed.distinct)

theorem severityOf_of_not_outranks (h : NestedScopes c path key narrow wide x y)
    (hrank : ¬ Outranks (Table.names c.scopes) narrow wide) :
    (c.scopeFor path).severityOf key = some y := by
  rcases h.exists_first with ⟨-, hrank'⟩ | ⟨hy, -⟩
  · exact absurd hrank' hrank
  · exact hy

end NestedScopes

/-! ## Directories in directories -/

/-- A directory has more files than one of its subdirectories. -/
theorem narrower_inside {dir : String} (h : '\\' ∉ dir.toList) (sub : String) :
    Narrower (globEscape (dir ++ "/" ++ sub) ++ "/" ++ "**") (globEscape dir ++ "/" ++ "**") := by
  constructor
  · intro path hpath
    obtain ⟨rest, hrest, -⟩ := (globMatches_inside_iff _ _ _).mp hpath
    apply (globMatches_inside_iff _ _ _).mpr
    refine ⟨sub ++ "/" ++ rest, ?_, globMatches_everything _⟩
    rw [hrest]
    simp only [String.append_assoc]
  · -- The path of the directory itself, with a slash behind it.
    have hself : ResolvedConfig.slashed (dir ++ "/" ++ "") = dir ++ "/" ++ "" := by
      apply slashed_eq_self
      simpa using h
    refine ⟨dir ++ "/" ++ "", ?_, ?_⟩
    · rw [Matches, hself]
      exact (globMatches_inside_iff _ _ _).mpr ⟨"", rfl, globMatches_everything _⟩
    · rw [Matches, hself, globMatches_inside_iff]
      rintro ⟨rest, hrest, -⟩
      have hlength := congrArg String.length hrest
      simp only [String.length_append] at hlength
      have hslash : ("/" : String).length = 1 := rfl
      have hempty : ("" : String).length = 0 := rfl
      omega

/-- What the scope of a directory sets goes before what the scope of a directory above it sets. -/
theorem outranks_inside {dir sub : String} (h : openBrace ∉ (dir ++ "/" ++ sub).toList)
    (patterns : List String) :
    Outranks patterns (globEscape (dir ++ "/" ++ sub) ++ "/" ++ "**")
      (globEscape dir ++ "/" ++ "**") := by
  have hdir : openBrace ∉ dir.toList := by
    intro hmem
    apply h
    simp only [String.toList_append, List.mem_append]
    exact Or.inl (Or.inl hmem)
  have hsub : 0 < (segmentsOf sub).length := List.length_pos_iff.mpr (segmentsOf_ne_nil sub)
  left
  rw [specificity_inside h, specificity_inside hdir, segmentsOf_append, List.length_append]
  omega

/-- Of two scopes for whole directories the one of the inner directory decides, in any order. -/
theorem NestedScopes.severityOf_inside {c : ResolvedConfig} {path key dir sub : String}
    {x y : Severity} (hbrace : openBrace ∉ (dir ++ "/" ++ sub).toList)
    (h : NestedScopes c path key (globEscape (dir ++ "/" ++ sub) ++ "/" ++ "**")
      (globEscape dir ++ "/" ++ "**") x y) : (c.scopeFor path).severityOf key = some x :=
  h.severityOf_of_outranks (outranks_inside hbrace _)

/-! ## Two scopes -/

/-- A configuration with two scopes, each of which sets the same key. -/
def twoScopes (key first : String) (x : Severity) (second : String) (y : Severity) :
    ResolvedConfig :=
  { scopes := [(first, { severity := some [(key, x)] }),
      (second, { severity := some [(key, y)] })] }

section

variable (key : String) (x y : Severity)

theorem wellFormed_twoScopes {first second : String} (h : first ≠ second) :
    (twoScopes key first x second y).WellFormed := by
  constructor
  · simpa [Table.Distinct, Table.names, twoScopes] using h
  · intro scope hscope
    simp only [twoScopes, List.mem_cons, List.not_mem_nil, or_false] at hscope
    rcases hscope with rfl | rfl
    · exact ⟨by simp [Table.Distinct, Table.names], by simp⟩
    · exact ⟨by simp [Table.Distinct, Table.names], by simp⟩

theorem scopeSeverity_twoScopes {first second : String} (h : first ≠ second) :
    scopeSeverity (twoScopes key first x second y).scopes key first = some x ∧
      scopeSeverity (twoScopes key first x second y).scopes key second = some y := by
  simp [scopeSeverity, twoScopes, Table.find?_cons, ScopeOverride.severityOf, h.symm]

theorem eq_or_eq_of_twoScopes {first second other : String}
    (h : (scopeSeverity (twoScopes key first x second y).scopes key other).isSome) :
    other = first ∨ other = second := by
  obtain ⟨o, ho, -⟩ := exists_of_isSome_bind h
  have hmem := Table.mem_of_find? ho
  simp only [twoScopes, List.mem_cons, List.not_mem_nil, or_false, Prod.mk.injEq] at hmem
  exact hmem.imp And.left And.left

/-- Two scopes are nested in either order. -/
theorem nestedScopes_twoScopes {narrow wide path : String} (h : Narrower narrow wide)
    (hpath : Matches narrow path) :
    NestedScopes (twoScopes key narrow x wide y) path key narrow wide x y ∧
      NestedScopes (twoScopes key wide y narrow x) path key narrow wide x y := by
  constructor
  · obtain ⟨hnarrow, hwide⟩ := scopeSeverity_twoScopes key x y h.ne
    exact ⟨wellFormed_twoScopes key x y h.ne, h, hpath, hnarrow, hwide,
      fun other _ hset => eq_or_eq_of_twoScopes key x y hset⟩
  · obtain ⟨hwide, hnarrow⟩ := scopeSeverity_twoScopes key y x h.ne.symm
    exact ⟨wellFormed_twoScopes key y x h.ne.symm, h, hpath, hnarrow, hwide,
      fun other _ hset => (eq_or_eq_of_twoScopes key y x hset).symm⟩

end

/-- A class of one character stands for it, so the pattern has one file of the directory only. -/
theorem narrower_class : Narrower "[a]/b" "a/*" := by
  refine ⟨?_, "a/c", by decide +kernel, by decide +kernel⟩
  intro path hpath
  have hparse : Glob.parse? "[a]/b".toList =
      some [.oneOf false [.single 'a'], .char '/', .char 'b'] := by decide +kernel
  have hparse' : Glob.parse? "a/*".toList = some [.char 'a', .char '/', .anySequence] := by
    decide +kernel
  rw [Matches, globMatches, hparse] at hpath
  rw [Matches, globMatches, hparse']
  revert hpath
  generalize (ResolvedConfig.slashed path).toList = chars
  intro hpath
  rcases chars with _ | ⟨c, _ | ⟨d, _ | ⟨e, rest⟩⟩⟩ <;>
    simp [Glob.accepts, Glob.takesChar, Glob.holds] at hpath
  obtain ⟨⟨-, rfl⟩, rfl, rfl, rfl⟩ := hpath
  decide

/-! ## The scope that decides -/

namespace ResolvedConfig

/-- Of two scopes that alone set a key for a file, the narrower one decides if it has more literal
parts, or as many and is listed later, and the other one otherwise. If their first wildcards take
more than one character, the narrower one never has fewer. So it decides whatever the order if its
files have more parts in common than those of the other one, and if not, then whichever is listed
later decides. -/
theorem severityOf_nested {c : ResolvedConfig} {path key narrow wide : String} {x y : Severity}
    (h : NestedScopes c path key narrow wide x y) (hnarrow : Counted narrow)
    (hwide : Counted wide) :
    (Prevails (Table.names c.scopes) narrow wide → (c.scopeFor path).severityOf key = some x) ∧
      (¬ Prevails (Table.names c.scopes) narrow wide →
        (c.scopeFor path).severityOf key = some y) ∧
      (Varied narrow → Varied wide →
        literalParts wide ≤ literalParts narrow ∧
          (Closer narrow wide → (c.scopeFor path).severityOf key = some x) ∧
          (¬ Closer narrow wide →
            ([wide, narrow] <+ Table.names c.scopes →
              (c.scopeFor path).severityOf key = some x) ∧
            ([narrow, wide] <+ Table.names c.scopes →
              (c.scopeFor path).severityOf key = some y))) := by
  have hrank := outranks_iff_prevails hnarrow hwide (Table.names c.scopes)
  have hfirst : Prevails (Table.names c.scopes) narrow wide →
      (c.scopeFor path).severityOf key = some x :=
    fun hprevails => h.severityOf_of_outranks (hrank.mpr hprevails)
  have hsecond : ¬ Prevails (Table.names c.scopes) narrow wide →
      (c.scopeFor path).severityOf key = some y :=
    fun hprevails => h.severityOf_of_not_outranks (hrank.not.mpr hprevails)
  refine ⟨hfirst, hsecond, fun hvaried hvaried' => ?_⟩
  have hle := h.narrower.literalParts_le hvaried hvaried' h.matched
  have hcloser := closer_iff hvaried hvaried' h.matched (h.narrower.subset path h.matched)
  refine ⟨hle, fun hclose => hfirst (Or.inl (hcloser.mp hclose)), fun hfar => ?_⟩
  have hnot := hcloser.not.mp hfar
  have hsame : literalParts narrow = literalParts wide := by omega
  refine ⟨fun hlater => hfirst (Or.inr ⟨hsame, hlater⟩), fun hearlier => hsecond ?_⟩
  rintro (hmore | ⟨-, hlater⟩)
  · exact hnot hmore
  · exact not_sublist_swap h.wellFormed.distinct hearlier hlater

/-- The old package decides about its files though all packages are listed later. -/
theorem severityOf_nested_packages :
    Counted "packages/legacy/**" ∧ Counted "packages/**" ∧
      Varied "packages/legacy/**" ∧ Varied "packages/**" ∧
      Closer "packages/legacy/**" "packages/**" ∧
      NestedScopes (twoScopes "naming" "packages/legacy/**" .off "packages/**" .error)
        "packages/legacy/src/old.ts" "naming" "packages/legacy/**" "packages/**" .off .error ∧
      ((twoScopes "naming" "packages/legacy/**" .off "packages/**" .error).scopeFor
        "packages/legacy/src/old.ts").severityOf "naming" = some .off := by
  have hnarrower : Narrower "packages/legacy/**" "packages/**" := by
    have hinner : globEscape ("packages" ++ "/" ++ "legacy") ++ "/" ++ "**" =
        "packages/legacy/**" := by decide +kernel
    have houter : globEscape "packages" ++ "/" ++ "**" = "packages/**" := by decide +kernel
    rw [← hinner, ← houter]
    exact narrower_inside (by decide) "legacy"
  have hmatch : Matches "packages/legacy/**" "packages/legacy/src/old.ts" := by decide +kernel
  have hcounted : Counted "packages/legacy/**" := by decide +kernel
  have hcounted' : Counted "packages/**" := by decide +kernel
  have hvaried : Varied "packages/legacy/**" := .of_star (by decide +kernel)
  have hvaried' : Varied "packages/**" := .of_star (by decide +kernel)
  have hcloser : Closer "packages/legacy/**" "packages/**" :=
    (closer_iff hvaried hvaried' hmatch (hnarrower.subset _ hmatch)).mpr (by decide +kernel)
  have hnested := (nestedScopes_twoScopes "naming" .off .error hnarrower hmatch).1
  obtain ⟨-, -, hvaries⟩ := severityOf_nested hnested hcounted hcounted'
  exact ⟨hcounted, hcounted', hvaried, hvaried', hcloser, hnested,
    (hvaries hvaried hvaried').2.1 hcloser⟩

/-- Without leading parts of its own a narrower scope decides nothing against a wider one that is
listed later, and if its only leading part is written as a class, it decides nothing in either
order. -/
theorem narrower_scope_loses :
    NestedScopes (twoScopes "naming" "*.ts" .off "**" .error) "a.ts" "naming" "*.ts" "**"
        .off .error ∧
      ((twoScopes "naming" "*.ts" .off "**" .error).scopeFor "a.ts").severityOf "naming" =
        some .error ∧
      NestedScopes (twoScopes "naming" "[a]/b" .off "a/*" .error) "a/b" "naming" "[a]/b" "a/*"
        .off .error ∧
      ((twoScopes "naming" "[a]/b" .off "a/*" .error).scopeFor "a/b").severityOf "naming" =
        some .error ∧
      NestedScopes (twoScopes "naming" "a/*" .error "[a]/b" .off) "a/b" "naming" "[a]/b" "a/*"
        .off .error ∧
      ((twoScopes "naming" "a/*" .error "[a]/b" .off).scopeFor "a/b").severityOf "naming" =
        some .error := by
  have hscripts : Narrower "*.ts" "**" :=
    ⟨fun path _ => globMatches_everything _, "b", by decide +kernel, by decide +kernel⟩
  have htop := nestedScopes_twoScopes "naming" .off .error hscripts
    (show Matches "*.ts" "a.ts" by decide +kernel)
  have hclass := nestedScopes_twoScopes "naming" .off .error narrower_class
    (show Matches "[a]/b" "a/b" by decide +kernel)
  exact ⟨htop.1, by decide +kernel, hclass.1, by decide +kernel, hclass.2, by decide +kernel⟩

end ResolvedConfig

end LintFront
