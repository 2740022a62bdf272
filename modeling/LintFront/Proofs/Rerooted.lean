import LintFront.Proofs.Contributions
import LintFront.Proofs.Openings

/-!
# Patterns behind a directory

What the configuration file of a directory says comes in behind the name of the directory. The
patterns keep what they match there. They also keep how specific they are compared with each other,
if the name of the directory holds no opening brace; behind a brace all patterns count the same.

* `specificity_inside`, `specificity_inside_of_brace`: how specific a pattern behind a directory is.
* `Resolver.inside`: a pattern behind a directory, `Resolver.globMatches_inside`: what it matches.
* `Resolver.mergeAbove`: scopes that come in above others.
* `Resolver.bringIn`: the scopes that a directory brings in.
* `Resolver.scopeSeverity_bringIn`, `Resolver.mem_scopeSkip_bringIn`: what these say.
-/

namespace LintFront

open scoped List

/-! ## Escaped parts -/

/-- An escaped part is literal unless it opens a group of alternatives. -/
theorem isLiteralPart_escapeChars (part : List Char) :
    isLiteralPart (escapeChars part) = decide (openBrace ∉ part) := by
  have happend := isLiteralPart_append (Glob.spells_escapeChars part) []
  rw [List.append_nil] at happend
  exact happend.trans (Bool.and_true _)

theorem segments_escapeChars (cs : List Char) :
    segments '/' (escapeChars cs) = (segments '/' cs).map escapeChars := by
  induction cs with
  | nil => rfl
  | cons c rest ih =>
    by_cases hslash : c = '/'
    · subst hslash
      rw [escapeChars_cons_plain rfl, segments, if_pos rfl, segments, if_pos rfl, ih]
      rfl
    · rw [segments, if_neg hslash]
      cases hparts : segments '/' rest with
      | nil => exact absurd hparts (segments_ne_nil _ _)
      | cons part parts =>
        rw [hparts, List.map_cons] at ih
        cases hc : isGlobSpecial c with
        | true => simp [escapeChars_cons_special hc, segments, hslash, ih]
        | false => simp [escapeChars_cons_plain hc, segments, hslash, ih]

/-! ## How specific a pattern behind a directory is -/

theorem exists_mem_segments {separator c : Char} (hc : c ≠ separator) {cs : List Char}
    (h : c ∈ cs) : ∃ part ∈ segments separator cs, c ∈ part := by
  rw [← joinSegments_segments separator cs] at h
  generalize segments separator cs = parts at h
  induction parts with
  | nil => cases h
  | cons part parts ih =>
    cases parts with
    | nil => exact ⟨part, by simp, h⟩
    | cons next rest =>
      rcases List.mem_append.mp h with h | h
      · exact ⟨part, by simp, h⟩
      · rcases List.mem_cons.mp h with rfl | h
        · exact absurd rfl hc
        · obtain ⟨p, hp, hmem⟩ := ih h
          exact ⟨p, List.mem_cons_of_mem _ hp, hmem⟩

/-- The escaped parts of a text without a brace are literal. -/
theorem isLiteralPart_of_mem_segments {cs : List Char} (h : openBrace ∉ cs)
    {parts : List (List Char)} (hparts : parts ⊆ segments '/' cs) :
    ∀ part ∈ parts.map escapeChars, isLiteralPart part = true := by
  intro part hpart
  obtain ⟨chars, hchars, rfl⟩ := List.mem_map.mp hpart
  rw [isLiteralPart_escapeChars, decide_eq_true_iff]
  exact fun hbrace => h ((mem_segments (hparts hchars)).2 _ hbrace)

/-- The parts of an escaped name are all literal, or a brace ends the literal ones among them. -/
theorem specificityOf_behind (dir pattern : List Char) :
    specificityOf (escapeChars dir ++ '/' :: pattern) =
      if openBrace ∈ dir then specificityOf (escapeChars dir)
      else (segments '/' dir).length + specificityOf pattern := by
  unfold specificityOf
  rw [segments_append, segments_escapeChars]
  split
  · rename_i h
    have hslash : openBrace ≠ '/' := by decide
    obtain ⟨part, hpart, hbrace⟩ := exists_mem_segments hslash h
    rw [List.takeWhile_append, if_neg]
    intro hlength
    have hall := (List.takeWhile_prefix _).eq_of_length hlength
    have hmem := List.mem_map_of_mem (f := escapeChars) hpart
    rw [← hall] at hmem
    have hliteral := List.all_eq_true.mp List.all_takeWhile _ hmem
    rw [isLiteralPart_escapeChars, decide_eq_true_iff] at hliteral
    exact hliteral hbrace
  · rename_i h
    rw [List.takeWhile_append_of_pos (isLiteralPart_of_mem_segments h (List.Subset.refl _)),
      List.length_append, List.length_map]

theorem toList_behind (dir pattern : String) :
    (globEscape dir ++ "/" ++ pattern).toList =
      escapeChars dir.toList ++ '/' :: pattern.toList := by
  simp [globEscape]

/-- A pattern behind a directory fixes the names of the directory and what it fixes itself. -/
theorem specificity_inside {dir : String} (h : openBrace ∉ dir.toList) (pattern : String) :
    specificity (globEscape dir ++ "/" ++ pattern) =
      (segmentsOf dir).length + specificity pattern := by
  rw [specificity, toList_behind, specificityOf_behind, if_neg h, segmentsOf, List.length_map]
  rfl

/-- Behind a directory with a brace in its name all patterns are equally specific. -/
theorem specificity_inside_of_brace {dir : String} (h : openBrace ∈ dir.toList)
    (pattern : String) :
    specificity (globEscape dir ++ "/" ++ pattern) = specificity (globEscape dir) := by
  rw [specificity, toList_behind, specificityOf_behind, if_pos h, specificity, globEscape,
    String.toList_ofList]

/-! ## The places of a configuration at a pattern -/

/-- The places of a configuration that stand at a pattern, the one that goes first before the other
one. -/
def reachesAt (pattern : String) : List Reach :=
  .within pattern :: if pattern = globalScope then [.everywhere] else []

theorem mem_reachesAt {reach : Reach} {pattern : String} :
    reach ∈ reachesAt pattern ↔ reach.pattern = pattern := by
  unfold reachesAt
  by_cases hpattern : pattern = globalScope
  · rw [if_pos hpattern]
    cases reach <;> simp [Reach.pattern, hpattern]
  · rw [if_neg hpattern]
    cases reach <;> simp [Reach.pattern, Ne.symm hpattern]

theorem exists_reachesAt {pattern : String} {p : Reach → Prop} :
    (∃ reach ∈ reachesAt pattern, p reach) ↔
      p (.within pattern) ∨ pattern = globalScope ∧ p .everywhere := by
  unfold reachesAt
  by_cases hpattern : pattern = globalScope <;> simp [hpattern]

theorem findSome?_reachesAt (c : Configuration) (key pattern : String) :
    (reachesAt pattern).findSome? (c.severityIn key) =
      (c.severityIn key (.within pattern)).or
        (if pattern = globalScope then c.severityIn key .everywhere else none) := by
  unfold reachesAt
  by_cases hpattern : pattern = globalScope
  · rw [if_pos hpattern, if_pos hpattern]
    cases h : c.severityIn key (.within pattern) <;> simp [h]
  · rw [if_neg hpattern, if_neg hpattern]
    cases h : c.severityIn key (.within pattern) <;> simp [h]

/-- A scope goes before the settings outside of scopes. -/
def Reach.Over (i j : Reach) : Prop := i ≠ .everywhere ∧ j = .everywhere

theorem pairwise_reachesAt (pattern : String) : (reachesAt pattern).Pairwise Reach.Over := by
  unfold reachesAt
  split <;> simp [Reach.Over]

namespace Resolver

/-! ## Patterns behind a directory -/

/-- A pattern behind a directory. -/
def inside (names : Place) (pattern : String) : String := escapedDirectory names ++ "/" ++ pattern

/-- The path of a file behind a directory. -/
def pathInside (names : Place) (path : String) : String := "/".intercalate names ++ "/" ++ path

theorem inside_inj {names : Place} {p q : String} : inside names p = inside names q ↔ p = q := by
  rw [inside, inside, String.append_right_inj]

theorem slashed_pathInside (names : Place) (path : String) :
    ResolvedConfig.slashed (pathInside names path) =
      ResolvedConfig.slashed ("/".intercalate names) ++ "/" ++ ResolvedConfig.slashed path := by
  simp only [ResolvedConfig.slashed, pathInside, ← String.toList_inj, String.toList_map,
    String.toList_append, List.map_append]
  rfl

/-- A pattern behind a directory matches the files there that it matched before. -/
theorem globMatches_inside (names : Place) (pattern path : String) :
    globMatches (inside names pattern) (ResolvedConfig.slashed (pathInside names path)) =
      globMatches pattern (ResolvedConfig.slashed path) := by
  rw [Bool.eq_iff_iff, inside, escapedDirectory, globMatches_inside_iff, slashed_pathInside]
  constructor
  · rintro ⟨rest, hrest, h⟩
    rwa [(String.append_right_inj _).mp hrest]
  · intro h
    exact ⟨_, rfl, h⟩

/-- The name of a directory holds an opening brace. -/
def Braced (names : Place) : Prop :=
  openBrace ∈ (ResolvedConfig.slashed ("/".intercalate names)).toList

theorem specificity_inside_of_not_braced {names : Place} (h : ¬ Braced names) (pattern : String) :
    specificity (inside names pattern) =
      (segmentsOf (ResolvedConfig.slashed ("/".intercalate names))).length + specificity pattern :=
  specificity_inside h pattern

/-- No pattern gets ahead of a more specific one by being put behind a directory. -/
theorem specificity_inside_le (names : Place) {p q : String} (h : specificity p ≤ specificity q) :
    specificity (inside names p) ≤ specificity (inside names q) := by
  by_cases hbrace : Braced names
  · have hall : ∀ pattern, specificity (inside names pattern) =
        specificity (globEscape (ResolvedConfig.slashed ("/".intercalate names))) :=
      specificity_inside_of_brace hbrace
    exact Nat.le_of_eq ((hall p).trans (hall q).symm)
  · rw [specificity_inside_of_not_braced hbrace, specificity_inside_of_not_braced hbrace]
    omega

/-- The pattern that another one is behind a directory, if it is one. -/
def beyond (names : Place) (pattern : String) : Option String :=
  let dir := (escapedDirectory names ++ "/").toList
  if dir <+: pattern.toList then some (String.ofList (pattern.toList.drop dir.length)) else none

theorem beyond_eq_some_iff {names : Place} {pattern q : String} :
    beyond names pattern = some q ↔ inside names q = pattern := by
  unfold beyond
  dsimp only
  constructor
  · intro h
    split at h
    · rename_i hway
      obtain ⟨rest, hrest⟩ := hway
      rw [← hrest, List.drop_left] at h
      obtain rfl := Option.some.inj h
      rw [← String.toList_inj, inside, String.toList_append, String.toList_ofList, hrest]
    · cases h
  · rintro rfl
    have hchars : (inside names q).toList = (escapedDirectory names ++ "/").toList ++ q.toList := by
      rw [inside, String.toList_append]
    rw [hchars, if_pos (List.prefix_append _ _), List.drop_left, String.ofList_toList]

/-! ## Scopes that come in above others -/

/-- Scopes with others brought in above them: these complete themselves from what is there, and a
pattern keeps its place. -/
def mergeAbove (scopes above : Table ScopeOverride) : Table ScopeOverride :=
  Table.mergeWith (fun present scope => scope.merge present) scopes above

theorem foldl_insertAbove (scopes above : Table ScopeOverride) :
    above.foldl (fun scopes entry => insertAbove scopes entry.1 entry.2) scopes =
      mergeAbove scopes above := by
  unfold mergeAbove Table.mergeWith
  congr 1
  funext scopes entry
  unfold insertAbove
  congr 1
  funext present
  cases present with
  | none => rfl
  | some o => rfl

theorem find?_mergeAbove (scopes : Table ScopeOverride) {above : Table ScopeOverride}
    (h : above.Distinct) (pattern : String) :
    Table.find? (mergeAbove scopes above) pattern =
      (Table.find? above pattern).merge ScopeOverride.merge (Table.find? scopes pattern) := by
  rw [mergeAbove, Table.find?_mergeWith _ _ h]
  cases Table.find? scopes pattern <;> cases Table.find? above pattern <;> rfl

/-- Each pattern has one scope, and the tables of the scopes hold each name once. -/
structure Sound (scopes : Table ScopeOverride) : Prop where
  distinct : Table.Distinct scopes
  scope : ∀ pattern o, Table.find? scopes pattern = some o → o.WellFormed

theorem sound_nil : Sound [] := ⟨Table.distinct_nil, by simp⟩

theorem Sound.mergeAbove {scopes above : Table ScopeOverride} (hscopes : Sound scopes)
    (habove : Sound above) : Sound (mergeAbove scopes above) where
  distinct := hscopes.distinct.mergeWith _ _
  scope pattern o ho := by
    rw [find?_mergeAbove _ habove.distinct] at ho
    rcases Option.merge_eq_some_iff.mp ho with ⟨hleft, -⟩ | ⟨-, hright⟩ | ⟨a, b, ha, hb, rfl⟩
    · exact habove.scope _ _ hleft
    · exact hscopes.scope _ _ hright
    · exact (habove.scope _ _ ha).merge (hscopes.scope _ _ hb)

/-! ## The places of a configuration at a pattern behind a directory -/

/-- The places of a configuration that stand at a pattern if they are put behind a directory. -/
def reachesBehind (names : Place) (pattern : String) : List Reach :=
  match beyond names pattern with
  | some q => reachesAt q
  | none => []

theorem reachesBehind_inside (names : Place) (q : String) :
    reachesBehind names (inside names q) = reachesAt q := by
  rw [reachesBehind, beyond_eq_some_iff.mpr rfl]

theorem mem_reachesBehind {reach : Reach} {names : Place} {pattern : String} :
    reach ∈ reachesBehind names pattern ↔ inside names reach.pattern = pattern := by
  unfold reachesBehind
  cases hbeyond : beyond names pattern with
  | none =>
    refine iff_of_false (by simp) fun h => ?_
    rw [beyond_eq_some_iff.mpr h] at hbeyond
    cases hbeyond
  | some q =>
    obtain rfl := beyond_eq_some_iff.mp hbeyond
    exact mem_reachesAt.trans inside_inj.symm

theorem pairwise_reachesBehind (names : Place) (pattern : String) :
    (reachesBehind names pattern).Pairwise Reach.Over := by
  unfold reachesBehind
  split
  · exact pairwise_reachesAt _
  · exact .nil

/-! ## What a directory brings in -/

/-- The patterns that a configuration has in a directory. -/
def patternsInside (c : Configuration) : List String :=
  (if c.scopePart.isEmpty then [] else [globalScope]) ++ c.patterns

/-- What a file says for all that is in its directory. -/
def ownScopes (names : Place) (c : Configuration) : Table ScopeOverride :=
  if c.scopePart.isEmpty then [] else [(inside names globalScope, c.scopePart)]

/-- What the scopes of a file say in its directory. -/
def nestedScopes (names : Place) (c : Configuration) : Table ScopeOverride :=
  (c.scopes.getD []).map fun scope => (inside names scope.1, scope.2)

/-- Scopes with those of the file of a directory brought in. -/
def bringIn (names : Place) (c : Configuration) (scopes : Table ScopeOverride) :
    Table ScopeOverride :=
  mergeAbove (mergeAbove scopes (ownScopes names c)) (nestedScopes names c)

theorem scopes_addDirectory (names : Place) (layer : Layer) (b : Below) :
    (addDirectory names layer b).scopes = bringIn names layer.config b.scopes := by
  have hown : (if layer.config.scopePart.isEmpty then b.scopes
      else insertAbove b.scopes (escapedDirectory names ++ "/**") layer.config.scopePart) =
        mergeAbove b.scopes (ownScopes names layer.config) := by
    unfold ownScopes
    split
    · rfl
    · rw [subtree_eq, ← foldl_insertAbove]
      rfl
  unfold addDirectory bringIn nestedScopes
  dsimp only
  rw [hown, ← foldl_insertAbove _ (List.map _ _), List.foldl_map]
  rfl

section

variable {names : Place} {c : Configuration} {scopes : Table ScopeOverride}

theorem names_ownScopes (names : Place) (c : Configuration) :
    Table.names (ownScopes names c) =
      (if c.scopePart.isEmpty then [] else [globalScope]).map (inside names) := by
  unfold ownScopes
  split <;> rfl

theorem names_nestedScopes (names : Place) (c : Configuration) :
    Table.names (nestedScopes names c) = c.patterns.map (inside names) := by
  simp only [Table.names, nestedScopes, Configuration.patterns, List.map_map, Function.comp_def]

theorem find?_nestedScopes (names : Place) (c : Configuration) (q : String) :
    Table.find? (nestedScopes names c) (inside names q) = Table.find? (c.scopes.getD []) q := by
  unfold nestedScopes
  generalize c.scopes.getD [] = nested
  induction nested with
  | nil => rfl
  | cons head rest ih =>
    rw [List.map_cons, Table.find?_cons, Table.find?_cons, ih]
    have hname : (inside names q == inside names head.1) = (q == head.1) := by
      rw [Bool.eq_iff_iff, beq_iff_eq, beq_iff_eq, inside_inj]
    rw [hname]

theorem find?_ownScopes (names : Place) (c : Configuration) (pattern : String) :
    Table.find? (ownScopes names c) pattern =
      if pattern = inside names globalScope ∧ c.scopePart.isEmpty = false then some c.scopePart
      else none := by
  unfold ownScopes
  cases hempty : c.scopePart.isEmpty with
  | true => simp
  | false =>
    rw [if_neg (by simp), Table.find?_cons]
    by_cases hpattern : pattern = inside names globalScope <;> simp [hpattern]

theorem Sound.ownScopes (hc : c.WellFormed) (names : Place) : Sound (ownScopes names c) where
  distinct := by
    unfold Table.Distinct
    rw [names_ownScopes]
    split <;> simp
  scope pattern o ho := by
    rw [find?_ownScopes] at ho
    split at ho
    · obtain rfl := Option.some.inj ho
      exact ⟨hc.severity, hc.linterConfig⟩
    · cases ho

theorem mem_names_nestedScopes {pattern : String}
    (h : pattern ∈ Table.names (nestedScopes names c)) :
    ∃ q ∈ c.patterns, inside names q = pattern := by
  rw [names_nestedScopes] at h
  exact List.mem_map.mp h

theorem Sound.nestedScopes (hc : c.WellFormed) (names : Place) : Sound (nestedScopes names c) where
  distinct := by
    unfold Table.Distinct
    rw [names_nestedScopes]
    refine List.pairwise_map.mpr ((ResolvedConfig.nodup_patterns hc).imp fun hne heq => ?_)
    exact hne (inside_inj.mp heq)
  scope pattern o ho := by
    obtain ⟨q, -, rfl⟩ := mem_names_nestedScopes (Table.mem_names_of_mem (Table.mem_of_find? ho))
    rw [find?_nestedScopes] at ho
    exact hc.of_find? ho

theorem Sound.bringIn (hc : c.WellFormed) (h : Sound scopes) (names : Place) :
    Sound (bringIn names c scopes) :=
  (h.mergeAbove (.ownScopes hc names)).mergeAbove (.nestedScopes hc names)

theorem names_bringIn (names : Place) (c : Configuration) (scopes : Table ScopeOverride) :
    Table.names (bringIn names c scopes) =
      union (Table.names scopes) ((patternsInside c).map (inside names)) := by
  rw [bringIn, mergeAbove, mergeAbove, Table.names_mergeWith, Table.names_mergeWith,
    names_ownScopes, names_nestedScopes, ← union_append, ← List.map_append]
  rfl

theorem isEmpty_scopePart {key : String} (h : (c.severityIn key .everywhere).isSome) :
    c.scopePart.isEmpty = false := by
  refine Bool.eq_false_iff.mpr fun hempty => ?_
  simp only [ScopeOverride.isEmpty, Configuration.scopePart, Bool.and_eq_true, List.isEmpty_iff]
    at hempty
  rw [Configuration.severityIn, hempty.1.2] at h
  cases h

theorem patternsInside_withSeverity {key : String} {reach : Reach}
    (h : (c.severityIn key reach).isSome) (s : Severity) :
    patternsInside (c.withSeverity key s reach) = patternsInside c := by
  have hempty : (c.withSeverity key s reach).scopePart.isEmpty = c.scopePart.isEmpty := by
    cases reach with
    | within pattern => rfl
    | everywhere =>
      have hchanged : ((c.withSeverity key s .everywhere).severityIn key .everywhere).isSome := by
        rw [Configuration.severityIn_withSeverity, if_pos rfl]
        rfl
      rw [isEmpty_scopePart h, isEmpty_scopePart hchanged]
  rw [patternsInside, patternsInside, hempty, Configuration.patterns_withSeverity h]

/-! ## What the scopes say afterwards -/

theorem scopeSeverity_nestedScopes (names : Place) (c : Configuration) (key q : String) :
    scopeSeverity (nestedScopes names c) key (inside names q) = c.severityIn key (.within q) := by
  rw [scopeSeverity, find?_nestedScopes, Configuration.severityIn]

theorem scopeSeverity_ownScopes (names : Place) (c : Configuration) (key q : String) :
    scopeSeverity (ownScopes names c) key (inside names q) =
      if q = globalScope then c.severityIn key .everywhere else none := by
  have hsome : c.scopePart.severityOf key = c.severityIn key .everywhere := rfl
  rw [scopeSeverity, find?_ownScopes]
  simp only [inside_inj]
  by_cases hq : q = globalScope
  · cases hempty : c.scopePart.isEmpty with
    | false => simp [hq, hsome]
    | true =>
      simp only [ScopeOverride.isEmpty, Configuration.scopePart, Bool.and_eq_true,
        List.isEmpty_iff] at hempty
      simp [Configuration.severityIn, hempty.1.2]
  · simp [hq]

theorem mem_scopeSkip_ownScopes {q linter : String} :
    linter ∈ scopeSkip (ownScopes names c) (inside names q) ↔
      q = globalScope ∧ linter ∈ c.skipIn .everywhere := by
  have hskip : c.scopePart.skip.getD [] = c.skipIn .everywhere := rfl
  rw [scopeSkip, find?_ownScopes]
  simp only [inside_inj]
  by_cases hq : q = globalScope
  · cases hempty : c.scopePart.isEmpty with
    | false => simp [hq, hskip]
    | true =>
      simp only [ScopeOverride.isEmpty, Configuration.scopePart, Bool.and_eq_true,
        List.isEmpty_iff] at hempty
      simp [Configuration.skipIn, hempty.1.1]
  · simp [hq]

theorem find?_eq_none_of_beyond {pattern : String} (h : beyond names pattern = none)
    (c : Configuration) :
    Table.find? (nestedScopes names c) pattern = none ∧
      Table.find? (ownScopes names c) pattern = none := by
  have hne : ∀ q, inside names q ≠ pattern := by
    intro q hq
    rw [beyond_eq_some_iff.mpr hq] at h
    cases h
  refine ⟨Table.find?_eq_none_iff.mpr fun hmem => ?_, ?_⟩
  · obtain ⟨q, -, hq⟩ := mem_names_nestedScopes hmem
    exact hne q hq
  · rw [find?_ownScopes, if_neg fun hq => hne _ hq.1.symm]

/-- A directory says at its patterns what its file says at its own, and nothing elsewhere. -/
theorem scopeSeverity_bringIn (hc : c.WellFormed) (h : Sound scopes) (names : Place)
    (key pattern : String) :
    scopeSeverity (bringIn names c scopes) key pattern =
      ((reachesBehind names pattern).findSome? (c.severityIn key)).or
        (scopeSeverity scopes key pattern) := by
  have hown := h.mergeAbove (.ownScopes hc names)
  have hlower := scopeSeverity_merge
    (find?_mergeAbove scopes (Sound.ownScopes hc names).distinct pattern) (h.scope pattern) key
  have hupper := scopeSeverity_merge
    (find?_mergeAbove (mergeAbove scopes (ownScopes names c))
      (Sound.nestedScopes hc names).distinct pattern) (hown.scope pattern) key
  rw [bringIn, hupper, hlower, ← Option.or_assoc]
  refine congrArg (Option.or · (scopeSeverity scopes key pattern)) ?_
  cases hbeyond : beyond names pattern with
  | none =>
    obtain ⟨hnested, hself⟩ := find?_eq_none_of_beyond hbeyond c
    simp [scopeSeverity, hnested, hself, reachesBehind, hbeyond]
  | some q =>
    obtain rfl := beyond_eq_some_iff.mp hbeyond
    rw [scopeSeverity_nestedScopes, scopeSeverity_ownScopes, reachesBehind_inside,
      findSome?_reachesAt]

theorem mem_scopeSkip_bringIn (hc : c.WellFormed) (names : Place) (scopes : Table ScopeOverride)
    {pattern linter : String} :
    linter ∈ scopeSkip (bringIn names c scopes) pattern ↔
      (∃ reach ∈ reachesBehind names pattern, linter ∈ c.skipIn reach) ∨
        linter ∈ scopeSkip scopes pattern := by
  have hlower := find?_mergeAbove scopes (Sound.ownScopes hc names).distinct pattern
  have hupper := find?_mergeAbove (mergeAbove scopes (ownScopes names c))
    (Sound.nestedScopes hc names).distinct pattern
  rw [bringIn, mem_scopeSkip_merge hupper, mem_scopeSkip_merge hlower, ← or_assoc]
  refine or_congr_left ?_
  cases hbeyond : beyond names pattern with
  | none =>
    obtain ⟨hnested, hself⟩ := find?_eq_none_of_beyond hbeyond c
    simp [scopeSkip, hnested, hself, reachesBehind, hbeyond]
  | some q =>
    obtain rfl := beyond_eq_some_iff.mp hbeyond
    rw [mem_scopeSkip_ownScopes]
    have hnested : scopeSkip (nestedScopes names c) (inside names q) = c.skipIn (.within q) := by
      rw [scopeSkip, find?_nestedScopes, Configuration.skipIn, scopeSkip]
    rw [hnested, reachesBehind_inside, exists_reachesAt]

/-! ## Together with the project -/

section

variable {merged : Configuration}

theorem names_ofMerged_below (merged : Configuration) (h : Sound scopes) :
    Table.names (ResolvedConfig.ofMerged merged scopes).scopes =
      (Table.names (ResolvedConfig.ofMerged merged []).scopes).filter (· ∉ Table.names scopes) ++
        Table.names scopes :=
  ResolvedConfig.names_insertAllLater _ h.distinct

/-- What the directories below say goes before what the project says at the same pattern. -/
theorem scopeSeverity_ofMerged_below (hmerged : merged.WellFormed) (h : Sound scopes)
    (key pattern : String) :
    scopeSeverity (ResolvedConfig.ofMerged merged scopes).scopes key pattern =
      (scopeSeverity scopes key pattern).or
        (scopeSeverity (ResolvedConfig.ofMerged merged []).scopes key pattern) := by
  have hproject := ResolvedConfig.wellFormed_ofMerged_nil hmerged
  have hfind := ResolvedConfig.find?_insertAllLater
    (ResolvedConfig.ofMerged merged []).scopes h.distinct pattern
  exact scopeSeverity_merge hfind (fun o ho => hproject.of_find? ho) key

theorem mem_scopeSkip_ofMerged_below (merged : Configuration) (h : Sound scopes)
    {pattern linter : String} :
    linter ∈ scopeSkip (ResolvedConfig.ofMerged merged scopes).scopes pattern ↔
      linter ∈ scopeSkip scopes pattern ∨
        linter ∈ scopeSkip (ResolvedConfig.ofMerged merged []).scopes pattern :=
  mem_scopeSkip_merge
    (ResolvedConfig.find?_insertAllLater (ResolvedConfig.ofMerged merged []).scopes h.distinct
      pattern)

end

end

end Resolver

end LintFront
