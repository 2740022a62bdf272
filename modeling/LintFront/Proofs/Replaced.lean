import LintFront.Builder.Basic
import LintFront.Proofs.Table
import Mathlib.Data.List.Induction

/-!
# Grammars that are replaced

A language may get a grammar more than once. The last one counts, at the place where the language
came in with its first one. What is looked up by an extension goes by both: the grammars that count
are asked, in the order of those places.

* `SameExtension`: extensions that differ in leading dots only.
* `GrammarRegistry.last?`: the grammar that came in last for a language.
* `GrammarRegistry.Recalls`: how a registry answers after some insertions.
* `GrammarRegistry.Replaces`: what one more grammar for a known language changes.
* `GrammarRegistry.insertAll_recalls`: a registry answers so after any insertions.
* `BuilderConfig.recalls_addGrammar`: so does the one that a module builds.
-/

namespace LintFront

/-! ## Extensions -/

/-- Two extensions are the same, leading dots aside. -/
def SameExtension (a b : String) : Prop :=
  ∃ m n bare, bare.head? ≠ some '.' ∧ a.toList = List.replicate m '.' ++ bare ∧
    b.toList = List.replicate n '.' ++ bare

theorem dropWhile_dots {bare : List Char} (h : bare.head? ≠ some '.') (n : Nat) :
    (List.replicate n '.' ++ bare).dropWhile (· == '.') = bare := by
  induction n with
  | zero =>
    cases bare with
    | nil => rfl
    | cons c rest =>
      have hc : (c == '.') = false := by simpa using h
      exact List.dropWhile_cons_of_neg (by simp [hc])
  | succ n ih =>
    rw [List.replicate_succ, List.cons_append, List.dropWhile_cons_of_pos rfl, ih]

theorem exists_dots (cs : List Char) :
    ∃ n bare, bare.head? ≠ some '.' ∧ cs = List.replicate n '.' ++ bare := by
  induction cs with
  | nil => exact ⟨0, [], by simp, rfl⟩
  | cons c cs ih =>
    obtain ⟨n, bare, hbare, rfl⟩ := ih
    by_cases hc : c = '.'
    · subst hc
      exact ⟨n + 1, bare, hbare, rfl⟩
    · exact ⟨0, c :: (List.replicate n '.' ++ bare), by simpa using hc, rfl⟩

theorem undotted_eq_iff {a b : String} : undotted a = undotted b ↔ SameExtension a b := by
  rw [undotted, undotted, String.ofList_inj]
  constructor
  · intro h
    obtain ⟨m, bare, hbare, ha⟩ := exists_dots a.toList
    obtain ⟨n, bare', hbare', hb⟩ := exists_dots b.toList
    rw [ha, hb, dropWhile_dots hbare, dropWhile_dots hbare'] at h
    subst h
    exact ⟨m, n, bare, hbare, ha, hb⟩
  · rintro ⟨m, n, bare, hbare, ha, hb⟩
    rw [ha, hb, dropWhile_dots hbare, dropWhile_dots hbare]

/-- A grammar lists an extension, with or without dots. -/
def Grammar.Lists (g : Grammar) (extension : String) : Prop :=
  ∃ e ∈ g.extensions, SameExtension e extension

theorem Grammar.handles_iff {g : Grammar} {extension : String} :
    g.handles extension = true ↔ g.Lists extension := by
  simp only [handles, List.any_eq_true, beq_iff_eq, undotted_eq_iff, Lists]

/-! ## Places of languages -/

/-- First occurrences come in the order in which they came in the whole list. -/
theorem idxOf_eraseDups_le_iff {list : List String} {a b : String} (ha : a ∈ list)
    (hb : b ∈ list) :
    list.eraseDups.idxOf a ≤ list.eraseDups.idxOf b ↔ list.idxOf a ≤ list.idxOf b := by
  induction list using List.reverseRecOn with
  | nil => cases ha
  | append_singleton list x ih =>
    rw [List.eraseDups_append]
    by_cases hx : x ∈ list
    · -- What comes again changes nothing.
      have hmem : ∀ {y}, y ∈ list ++ [x] → y ∈ list := by
        intro y hy
        rcases List.mem_append.mp hy with hy | hy
        · exact hy
        · rwa [List.mem_singleton.mp hy]
      have hnone : ([x].removeAll list).eraseDups = [] := by simp [List.removeAll, hx]
      rw [hnone, List.append_nil, List.idxOf_append, List.idxOf_append, if_pos (hmem ha),
        if_pos (hmem hb)]
      exact ih (hmem ha) (hmem hb)
    · have hnew : ([x].removeAll list).eraseDups = [x] := by
        simp [List.removeAll, hx, List.eraseDups_cons]
      -- A new one comes in behind all others.
      have hlt : ∀ {y}, y ∈ list →
          list.eraseDups.idxOf y < list.eraseDups.length ∧ list.idxOf y < list.length :=
        fun hy => ⟨List.idxOf_lt_length_of_mem (List.mem_eraseDups.mpr hy),
          List.idxOf_lt_length_of_mem hy⟩
      rw [hnew]
      simp only [List.idxOf_append, List.mem_eraseDups]
      rcases List.mem_append.mp ha with hold | hlast <;>
        rcases List.mem_append.mp hb with hold' | hlast'
      · rw [if_pos hold, if_pos hold', if_pos hold, if_pos hold']
        exact ih hold hold'
      · have := hlt hold
        rw [List.mem_singleton.mp hlast', if_pos hold, if_neg hx, if_pos hold, if_neg hx]
        omega
      · have := hlt hold'
        rw [List.mem_singleton.mp hlast, if_neg hx, if_pos hold', if_neg hx, if_pos hold']
        omega
      · rw [List.mem_singleton.mp hlast, List.mem_singleton.mp hlast']
        exact ⟨fun _ => Nat.le_refl _, fun _ => Nat.le_refl _⟩

namespace Table

variable {α : Type}

theorem names_append (t u : Table α) : names (t ++ u) = names t ++ names u := List.map_append

theorem length_names (t : Table α) : (names t).length = t.length := List.length_map _

/-- The place of an entry among the names. -/
theorem Distinct.idxOf_names {before after : Table α} {entry : String × α}
    (h : Distinct (before ++ entry :: after)) :
    (names (before ++ entry :: after)).idxOf entry.1 = before.length := by
  have hnew : entry.1 ∉ names before := by
    rw [Distinct, names_append] at h
    exact fun hmem => (List.nodup_append.mp h).2.2 _ hmem _ List.mem_cons_self rfl
  rw [names_append, List.idxOf_append, if_neg hnew, length_names, names, List.map_cons,
    List.idxOf_cons_self, Nat.zero_add]

/-- The first entry of a kind stands before all others of that kind. -/
theorem Distinct.find?_entry_eq_some_iff {t : Table α} (ht : t.Distinct) (p : α → Bool)
    {name : String} {value : α} :
    List.find? (fun entry => p entry.2) t = some (name, value) ↔
      (t.find? name = some value ∧ p value = true) ∧
        ∀ other found, t.find? other = some found → p found = true →
          t.names.idxOf name ≤ t.names.idxOf other := by
  rw [List.find?_eq_some_iff_append]
  constructor
  · rintro ⟨hp, before, after, rfl, hbefore⟩
    refine ⟨⟨ht.find?_of_mem (by simp), hp⟩, fun other found hother hfound => ?_⟩
    rw [ht.idxOf_names, names_append, List.idxOf_append]
    split
    · rename_i hmem
      obtain ⟨entry, hentry, rfl⟩ := List.mem_map.mp hmem
      have hsame := ht.find?_of_mem (List.mem_append_left _ hentry)
      rw [hother] at hsame
      have hno := hbefore entry hentry
      rw [← Option.some.inj hsame, hfound] at hno
      cases hno
    · rw [length_names]
      exact Nat.le_add_left _ _
  · rintro ⟨⟨hfind, hp⟩, hleast⟩
    obtain ⟨before, after, rfl⟩ := List.append_of_mem (mem_of_find? hfind)
    refine ⟨hp, before, after, rfl, fun entry hentry => ?_⟩
    have hmem : entry.1 ∈ names before := mem_names_of_mem hentry
    have hlt := List.idxOf_lt_length_of_mem hmem
    rw [length_names] at hlt
    rw [Bool.not_eq_true', Bool.eq_false_iff]
    intro hkind
    have hle := hleast entry.1 entry.2 (ht.find?_of_mem (List.mem_append_left _ hentry)) hkind
    rw [ht.idxOf_names, names_append, List.idxOf_append, if_pos hmem] at hle
    omega

theorem Distinct.find?_entry_eq_none_iff {t : Table α} (ht : t.Distinct) (p : α → Bool) :
    List.find? (fun entry => p entry.2) t = none ↔
      ∀ name value, t.find? name = some value → p value = false := by
  rw [List.find?_eq_none]
  constructor
  · intro h name value hfind
    simpa using h _ (mem_of_find? hfind)
  · intro h entry hentry
    simpa using h _ _ (ht.find?_of_mem hentry)

/-- A new value at a name does not change under which name the first entry of a kind is found, if it
is of that kind just when the old one is. -/
theorem find?_entry_put {t : Table α} (p : α → Bool) {name : String} {old new : α}
    (hold : t.find? name = some old) (h : p new = p old) :
    (List.find? (fun entry => p entry.2) (t.put name new)).map Prod.fst =
      (List.find? (fun entry => p entry.2) t).map Prod.fst := by
  induction t with
  | nil => cases hold
  | cons entry rest ih =>
    obtain ⟨key, value⟩ := entry
    rw [find?_cons] at hold
    rw [Table.put, upsert]
    by_cases hkey : key = name
    · subst hkey
      rw [if_pos (by simp)] at hold
      rw [if_pos (by simp), List.find?_cons, List.find?_cons]
      dsimp only
      rw [h, Option.some.inj hold]
      cases p old <;> rfl
    · rw [if_neg (by simpa using fun heq : name = key => hkey heq.symm)] at hold
      rw [if_neg (by simpa using hkey), List.find?_cons, List.find?_cons]
      dsimp only
      cases p value with
      | true => rfl
      | false => exact ih hold

end Table

namespace GrammarRegistry

/-! ## One grammar after the other -/

/-- The registry with more grammars, one after the other. -/
def insertAll (r : GrammarRegistry) (log : List (String × Grammar)) : GrammarRegistry :=
  log.foldl (fun r entry => r.insert entry.1 entry.2) r

/-- The grammar that came in last for a language. -/
def last? (log : List (String × Grammar)) (language : String) : Option Grammar :=
  log.reverse.lookup language

theorem insertAll_cons (r : GrammarRegistry) (language : String) (g : Grammar)
    (log : List (String × Grammar)) :
    r.insertAll ((language, g) :: log) = (r.insert language g).insertAll log := rfl

theorem insertAll_concat (r : GrammarRegistry) (log : List (String × Grammar)) (language : String)
    (g : Grammar) : r.insertAll (log ++ [(language, g)]) = (r.insertAll log).insert language g :=
  List.foldl_append

theorem names_insert (r : GrammarRegistry) (language : String) (g : Grammar) :
    (r.insert language g).grammars.names =
      if language ∈ r.grammars.names then r.grammars.names
      else r.grammars.names ++ [language] := Table.names_upsert language _ r.grammars

theorem find?_insert (r : GrammarRegistry) (language : String) (g : Grammar) (other : String) :
    (r.insert language g).find? other = if other == language then some g else r.find? other :=
  Table.find?_upsert language other _ r.grammars

/-- A language comes in with its first grammar. -/
theorem names_insertAll (r : GrammarRegistry) (log : List (String × Grammar)) :
    (r.insertAll log).grammars.names = union r.grammars.names (Table.names log) := by
  induction log generalizing r with
  | nil => rfl
  | cons entry log ih => rw [insertAll_cons, ih, names_insert, Table.names_cons, union_cons]

/-- The last grammar counts. -/
theorem find?_insertAll (r : GrammarRegistry) (log : List (String × Grammar)) (language : String) :
    (r.insertAll log).find? language = (last? log language).or (r.find? language) := by
  induction log generalizing r with
  | nil => rfl
  | cons entry log ih =>
    rw [insertAll_cons, ih, find?_insert, last?, last?, List.reverse_cons, List.lookup_append,
      Option.or_assoc, List.lookup_cons, List.lookup_nil]
    cases language == entry.1 <;> rfl

/-! ## What is looked up -/

/-- The grammar that counts for a language lists an extension. -/
def Serves (log : List (String × Grammar)) (extension language : String) (g : Grammar) : Prop :=
  last? log language = some g ∧ g.Lists extension

/-- How a registry answers after some insertions. -/
structure Recalls (log : List (String × Grammar)) (r : GrammarRegistry) : Prop where
  find?_eq : ∀ language, r.find? language = last? log language
  /-- Of the languages that an extension is listed for, the one is found that came in first. -/
  forExtension_eq_some_iff : ∀ extension language g,
    r.forExtension extension = some (language, g) ↔
      Serves log extension language g ∧ ∀ other found, Serves log extension other found →
        (Table.names log).idxOf language ≤ (Table.names log).idxOf other
  forExtension_eq_none_iff : ∀ extension,
    r.forExtension extension = none ↔ ∀ language g, ¬ Serves log extension language g

/-- What one more grammar for a language changes that has one already. -/
structure Replaces (language : String) (g : Grammar) (before after : GrammarRegistry) : Prop where
  /-- No language changes its place. -/
  names_eq : after.grammars.names = before.grammars.names
  /-- Only the new grammar is found under its language, and by what it lists itself. -/
  found : ∀ extension found, after.forExtension extension = some (language, found) →
    found = g ∧ g.Lists extension
  /-- Where the new grammar lists what the old one listed, the same language is found. -/
  kept : ∀ extension old, before.find? language = some old →
    (g.Lists extension ↔ old.Lists extension) →
    (after.forExtension extension).map Prod.fst = (before.forExtension extension).map Prod.fst

variable {r : GrammarRegistry}

theorem recalls_of_find? {log : List (String × Grammar)} (hr : r.grammars.Distinct)
    (hnames : r.grammars.names = (Table.names log).eraseDups)
    (hfind : ∀ language, r.find? language = last? log language) : Recalls log r := by
  have hserves : ∀ extension language g, (r.grammars.find? language = some g ∧
      g.handles extension = true) ↔ Serves log extension language g := by
    intro extension language g
    rw [Serves, ← hfind, Grammar.handles_iff]
    rfl
  have hmem : ∀ {extension language g}, Serves log extension language g →
      language ∈ Table.names log := by
    rintro extension language g ⟨hlast, -⟩
    rw [← List.mem_eraseDups, ← hnames, ← Table.find?_isSome_iff]
    exact Option.isSome_of_eq_some ((hfind language).trans hlast)
  refine ⟨hfind, fun extension language g => ?_, fun extension => ?_⟩
  · refine (hr.find?_entry_eq_some_iff (·.handles extension)).trans ?_
    rw [hserves, hnames]
    refine and_congr_right fun hfirst => forall_congr' fun other => forall_congr' fun found => ?_
    rw [← and_imp, hserves]
    exact forall_congr' fun hother => idxOf_eraseDups_le_iff (hmem hfirst) (hmem hother)
  · refine (hr.find?_entry_eq_none_iff (·.handles extension)).trans ?_
    refine forall_congr' fun language => forall_congr' fun g => ?_
    rw [← hserves, not_and, Bool.not_eq_true]

theorem names_insertAll_nil (log : List (String × Grammar)) :
    (insertAll {} log).grammars.names = (Table.names log).eraseDups := by
  rw [names_insertAll, ← dedupe_eq_eraseDups]
  rfl

theorem distinct_insertAll_nil (log : List (String × Grammar)) :
    (insertAll {} log).grammars.Distinct := by
  rw [Table.Distinct, names_insertAll_nil]
  exact nodup_eraseDups _

theorem recalls_insertAll (log : List (String × Grammar)) : Recalls log (insertAll {} log) := by
  refine recalls_of_find? (distinct_insertAll_nil log) (names_insertAll_nil log) fun language => ?_
  rw [find?_insertAll]
  exact Option.or_none

theorem replaces_insert {language : String} {g : Grammar}
    (hr : (r.insert language g).grammars.Distinct) (hmem : language ∈ r.grammars.names) :
    Replaces language g r (r.insert language g) := by
  have hnames : (r.insert language g).grammars.names = r.grammars.names := by
    rw [names_insert, if_pos hmem]
  refine ⟨hnames, fun extension found hfound => ?_, fun extension old hold hlists => ?_⟩
  · obtain ⟨⟨hfind, hhandles⟩, -⟩ :=
      (hr.find?_entry_eq_some_iff (·.handles extension)).mp hfound
    have hnew := find?_insert r language g language
    rw [if_pos (by simp)] at hnew
    obtain rfl := Option.some.inj (hfind.symm.trans hnew)
    exact ⟨rfl, Grammar.handles_iff.mp hhandles⟩
  · refine Table.find?_entry_put (·.handles extension) hold (Bool.eq_iff_iff.mpr ?_)
    rw [Grammar.handles_iff, Grammar.handles_iff]
    exact hlists

/-- For each language the grammar counts that came in last, at the place where the language came in
first. One more grammar for a language takes the old one's place, and nothing that only the old one
listed is found under the language. -/
theorem insertAll_recalls (log : List (String × Grammar)) :
    Recalls log (insertAll {} log) ∧ ∀ language ∈ Table.names log, ∀ g,
      Replaces language g (insertAll {} log) (insertAll {} (log ++ [(language, g)])) := by
  refine ⟨recalls_insertAll log, fun language hlanguage g => ?_⟩
  have hdistinct := distinct_insertAll_nil (log ++ [(language, g)])
  rw [insertAll_concat] at hdistinct ⊢
  refine replaces_insert hdistinct ?_
  rw [names_insertAll_nil]
  exact List.mem_eraseDups.mpr hlanguage

/-- Two languages, both with a grammar for scripts. -/
def twoLanguages : List (String × Grammar) :=
  [("typescript", ⟨"ts.wasm", [".ts", "js"]⟩), ("javascript", ⟨"js.wasm", ["..js", "mjs"]⟩)]

/-- A new grammar of the first language gives up scripts to the second one, but keeps its place. -/
theorem insertAll_recalls_twoLanguages :
    "typescript" ∈ Table.names twoLanguages ∧
      (insertAll {} twoLanguages).forExtension ".js" =
        some ("typescript", ⟨"ts.wasm", [".ts", "js"]⟩) ∧
      (insertAll {} (twoLanguages ++ [("typescript", ⟨"new.wasm", ["mjs"]⟩)])).forExtension ".js" =
        some ("javascript", ⟨"js.wasm", ["..js", "mjs"]⟩) ∧
      (insertAll {} (twoLanguages ++ [("typescript", ⟨"new.wasm", ["mjs"]⟩)])).forExtension "mjs" =
        some ("typescript", ⟨"new.wasm", ["mjs"]⟩) ∧
      (insertAll {} (twoLanguages ++ [("typescript", ⟨"new.wasm", ["mjs"]⟩)])).grammars.names =
        ["typescript", "javascript"] := by
  have hmem : "typescript" ∈ Table.names twoLanguages := by decide
  have hreplaces := (insertAll_recalls twoLanguages).2 "typescript" hmem ⟨"new.wasm", ["mjs"]⟩
  refine ⟨hmem, by decide +kernel, by decide +kernel, by decide +kernel, ?_⟩
  rw [hreplaces.names_eq]
  decide

end GrammarRegistry

/-! ## What a module builds -/

namespace BuilderConfig

theorem grammars_addGrammar (b : BuilderConfig) (log : List (String × Grammar)) :
    (log.foldl (fun b entry => b.addGrammar entry.1 entry.2) b).grammars =
      b.grammars.insertAll log := by
  induction log generalizing b with
  | nil => rfl
  | cons entry log ih =>
    rw [List.foldl_cons, ih]
    rfl

/-- The grammars of a module are looked up in the same way. -/
theorem recalls_addGrammar (log : List (String × Grammar)) :
    GrammarRegistry.Recalls log
      (log.foldl (fun b entry => b.addGrammar entry.1 entry.2) ({} : BuilderConfig)).grammars := by
  rw [grammars_addGrammar]
  exact GrammarRegistry.recalls_insertAll log

end BuilderConfig

end LintFront
