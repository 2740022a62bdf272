import LintFront.CommandLine.Parse
import LintFront.Module.Bridge
import LintFront.Proofs.Reading

/-!
# Coming back over the bridge

The script of a bridge runs the program again with the words of its command line, and puts the
option with the value of the module behind them. The program reads these words as it did before, so
it is asked to do the same, unless the last of them is two dashes: behind these no option is read.

* `Given.Reads`: words that are read to their end.
* `Given.Reads.parseWords_append`: what comes behind such words.
* `Given.Reads.isSome_path?_iff`: whether they give the option with the value of a module.
* `Bridge.reenters_iff`: when the program is asked to do the same.
-/

namespace LintFront

/-! ## Words -/

theorem Word.ofText_eq_separator_iff {text : String} : ofText text = .separator ↔ text = "--" := by
  constructor
  · intro h
    unfold ofText at h
    split at h
    · rename_i hchars
      exact String.toList_inj.mp hchars
    · cases h
    · cases h
    · cases h
    · cases h
  · rintro rfl
    decide

/-! ## How the option is written -/

theorem append_of_splitValue (chars : List Char) :
    chars = (splitValue chars).1 ++ (splitValue chars).2.elim [] ('=' :: ·) := by
  induction chars with
  | nil => rfl
  | cons c rest ih =>
    rw [splitValue]
    split
    · rename_i hc
      rw [hc]
      rfl
    · exact congrArg (c :: ·) ih

theorem splitValue_append {name : List Char} (hname : '=' ∉ name) (rest : List Char) :
    splitValue (name ++ rest) = (name ++ (splitValue rest).1, (splitValue rest).2) := by
  induction name with
  | nil => rfl
  | cons c name ih =>
    rw [List.mem_cons, not_or] at hname
    rw [List.cons_append, splitValue, if_neg (Ne.symm hname.1), ih hname.2]
    rfl

theorem Word.ofText_of_dashes {text : String} {rest : List Char}
    (htext : text.toList = '-' :: '-' :: rest) (hrest : rest ≠ []) :
    ofText text =
      .long (String.ofList (splitValue rest).1) ((splitValue rest).2.map String.ofList) := by
  unfold ofText
  rw [htext]
  cases rest with
  | nil => exact absurd rfl hrest
  | cons c rest => rfl

theorem Word.dashes_of_ofText {text name : String} {value : Option String}
    (h : ofText text = .long name value) :
    ∃ rest, text.toList = '-' :: '-' :: rest ∧ name = String.ofList (splitValue rest).1 ∧
      value = (splitValue rest).2.map String.ofList := by
  unfold ofText at h
  split at h
  · cases h
  · rename_i rest _ htext
    cases h
    exact ⟨rest, htext, rfl, rfl⟩
  · cases h
  · cases h
  · cases h

/-- A word that gives the option with the value of a module. -/
def GivesPreloaded (word : String) : Prop :=
  word = preloadedFlag ∨ ∃ value, word = preloadedFlag ++ "=" ++ value

theorem givesPreloaded_iff {text : String} :
    GivesPreloaded text ↔ ∃ value, Word.ofText text = .long (undashed preloadedFlag) value := by
  have hflag : preloadedFlag.toList = '-' :: '-' :: (undashed preloadedFlag).toList := by decide
  constructor
  · rintro (rfl | ⟨value, rfl⟩)
    · exact ⟨none, by decide⟩
    · have htext : (preloadedFlag ++ "=" ++ value).toList =
          '-' :: '-' :: ((undashed preloadedFlag).toList ++ '=' :: value.toList) := by
        simp [hflag]
      rw [Word.ofText_of_dashes htext (by simp), splitValue_append (by decide), splitValue,
        if_pos rfl, List.append_nil, String.ofList_toList]
      exact ⟨_, rfl⟩
  · rintro ⟨value, h⟩
    obtain ⟨rest, htext, hname, -⟩ := Word.dashes_of_ofText h
    have hrest := append_of_splitValue rest
    rw [← String.toList_inj, String.toList_ofList] at hname
    rw [← hname] at hrest
    rw [hrest, ← List.cons_append, ← List.cons_append, ← hflag] at htext
    cases hvalue : (splitValue rest).2 with
    | none =>
      rw [hvalue] at htext
      exact Or.inl (String.toList_inj.mp (htext.trans (List.append_nil _)))
    | some value =>
      rw [hvalue] at htext
      refine Or.inr ⟨String.ofList value, String.toList_inj.mp ?_⟩
      simp [htext]

namespace Given

variable {g g' : Given} {text : String} {words : List String}

/-- Words that are read to their end, with the options given before and after them. -/
inductive Reads : Given → List String → Given → Prop
  | done (g : Given) : Reads g [] g
  /-- Two dashes come last. -/
  | closed (g : Given) : Reads g ["--"] g
  | alone {g g' last : Given} {text : String} {rest : List String}
    (h : g.addWord text = .ok (g', none)) (hrest : Reads g' rest last) :
    Reads g (text :: rest) last
  /-- An option takes the next word as its value. -/
  | paired {g g' g'' last : Given} {text value : String} {rest : List String} {option : CliOption}
    {valued : Valued} (h : g.addWord text = .ok (g', some (option, valued)))
    (hplain : Word.ofText value = .plain) (hvalue : g'.addValue option valued value = .ok g'')
    (hrest : Reads g'' rest last) :
    Reads g (text :: value :: rest) last

theorem ne_separator_of_addWord {outcome : Given × Option (CliOption × Valued)}
    (h : g.addWord text = .ok outcome) : text ≠ "--" := by
  rintro rfl
  cases h

theorem parseWords_cons (h : text ≠ "--") (rest : List String) :
    parseWords g (text :: rest) =
      match g.addWord text with
      | .error stop => .error stop
      | .ok (g, none) => parseWords g rest
      | .ok (g, some (option, valued)) =>
        match rest with
        | [] => .error (.usage (.missingValue option.name))
        | value :: rest =>
          match Word.ofText value with
          | .plain =>
            match g.addValue option valued value with
            | .error stop => .error stop
            | .ok g => parseWords g rest
          | _ => .error (.usage (.missingValue option.name)) := by
  rw [parseWords]
  split
  · rename_i hword
    exact absurd (Word.ofText_eq_separator_iff.mp hword) h
  · rfl

theorem parseWords_alone (h : g.addWord text = .ok (g', none)) (rest : List String) :
    parseWords g (text :: rest) = parseWords g' rest := by
  rw [parseWords_cons (ne_separator_of_addWord h), h]

theorem parseWords_paired {g'' : Given} {value : String} {option : CliOption} {valued : Valued}
    (h : g.addWord text = .ok (g', some (option, valued))) (hplain : Word.ofText value = .plain)
    (hvalue : g'.addValue option valued value = .ok g'') (rest : List String) :
    parseWords g (text :: value :: rest) = parseWords g'' rest := by
  rw [parseWords_cons (ne_separator_of_addWord h), h]
  dsimp only
  rw [hplain]
  dsimp only
  rw [hvalue]

/-- Words that have been read do not matter to the words behind them, unless two dashes are among
them: behind these nothing may come. -/
theorem Reads.parseWords_append (h : Reads g words g') (more : List String) :
    parseWords g (words ++ more) =
      if "--" ∈ words then g'.closed more else parseWords g' more := by
  induction h with
  | done => rfl
  | closed => rfl
  | alone h _ ih =>
    rw [List.cons_append, parseWords_alone h, ih]
    simp only [List.mem_cons, (ne_separator_of_addWord h).symm, false_or]
  | @paired _ _ _ _ text value rest _ _ h hplain hvalue _ ih =>
    have hnext : "--" ≠ value := by
      rintro rfl
      cases hplain
    rw [List.cons_append, List.cons_append, parseWords_paired h hplain hvalue, ih]
    simp only [List.mem_cons, (ne_separator_of_addWord h).symm, hnext, false_or]

theorem reads_of_parseWords (h : parseWords g words = .ok g') : Reads g words g' := by
  fun_induction parseWords g words with
  | case1 =>
    cases h
    exact .done _
  | case2 g text rest hword =>
    obtain rfl := Word.ofText_eq_separator_iff.mp hword
    cases rest with
    | nil =>
      cases h
      exact .closed _
    | cons => cases h
  | case3 => cases h
  | case4 g text rest g₁ hadd _ ih => exact .alone hadd (ih h)
  | case5 => cases h
  | case6 => cases h
  | case7 g text g₁ option valued hadd value rest hplain g₂ hvalue _ ih =>
    exact .paired hadd hplain hvalue (ih h)
  | case8 => cases h

/-! ## The option with the value of a module -/

/-- An option with its path at the end of those given. -/
def withPath (g : Given) (option : PathOption) (path : String) : Given :=
  { g with paths := g.paths ++ [(option, path)] }

theorem path?_withPath (g : Given) (option : PathOption) (path : String) (other : PathOption) :
    (g.withPath option path).path? other =
      (g.path? other).or (if other = option then some path else none) := by
  rw [path?, withPath, List.lookup_append, path?]
  congr 1
  by_cases h : other = option
  · rw [h, List.lookup_cons_self, if_pos rfl]
  · rw [List.lookup_cons, beq_eq_false_iff_ne.mpr h, List.lookup_nil, if_neg h]

/-- The option has been given, or waits for its value. -/
def Preloads (state : Given × Option (CliOption × Valued)) : Prop :=
  (state.1.path? .preloaded).isSome = true ∨ ∃ option, state.2 = some (option, .path .preloaded)

variable {state : Given × Option (CliOption × Valued)} {option : CliOption} {valued : Valued}
  {value : String}

theorem preloads_none : Preloads (g, none) ↔ (g.path? .preloaded).isSome = true :=
  or_iff_left (by simp)

theorem preloads_some :
    Preloads (g, some (option, valued)) ↔
      (g.path? .preloaded).isSome = true ∨ valued = .path .preloaded :=
  or_congr_right (by simp)

theorem isSome_path?_of_addValue (h : g.addValue option valued value = .ok g') :
    (g'.path? .preloaded).isSome = true ↔
      (g.path? .preloaded).isSome = true ∨ valued = .path .preloaded := by
  unfold addValue at h
  split at h
  · cases h
    simp [path?]
  · rename_i p
    split at h
    · cases h
    · split at h
      · cases h
      · cases h
        rw [← withPath, path?_withPath, Option.isSome_or, Bool.or_eq_true]
        refine or_congr_right ?_
        by_cases hp : .preloaded = p
        · simp [hp]
        · simp [hp, Ne.symm hp]

theorem preloads_of_addValue (h : (g.addValue option valued value).map (·, none) = .ok state) :
    Preloads state ↔ (g.path? .preloaded).isSome = true ∨ valued = .path .preloaded := by
  obtain ⟨g', hvalue, rfl⟩ := map_eq_ok_iff.mp h
  exact preloads_none.trans (isSome_path?_of_addValue hvalue)

theorem path?_of_addFlag {flag : Flag} (h : g.addFlag option flag = .ok g') (p : PathOption) :
    g'.path? p = g.path? p := by
  unfold addFlag at h
  split at h
  · cases h
  · cases h
    rfl

/-- No letter stands for the option. -/
theorem valued_of_optionByLetter? {c : Char} (h : optionByLetter? c = some option)
    (hvalued : option.meaning = .valued valued) : valued ≠ .path .preloaded := by
  have hlettered : ∀ option ∈ cliOptions, ∀ c, option.letter = some c →
      option.meaning ≠ .valued (.path .preloaded) := by
    simp [cliOptions]
  rintro rfl
  exact hlettered option (List.mem_of_find?_eq_some h) c (eq_of_beq (List.find?_some h :)) hvalued

/-- Just one name stands for the option. -/
theorem meaning_of_optionByName? {name : String} (h : optionByName? name = some option) :
    option.meaning = .valued (.path .preloaded) ↔ name = undashed preloadedFlag := by
  have hnamed : ∀ option ∈ cliOptions,
      (option.meaning = .valued (.path .preloaded) ↔ option.name = undashed preloadedFlag) := by
    decide
  rw [← eq_of_beq (List.find?_some h :)]
  exact hnamed option (List.mem_of_find?_eq_some h)

theorem preloads_of_addLetters {letters : List Char} (h : g.addLetters letters = .ok state) :
    Preloads state ↔ (g.path? .preloaded).isSome = true := by
  fun_induction addLetters g letters with
  | case1 =>
    cases h
    exact preloads_none
  | case6 g c rest option hoption flag hflag g₁ hadd ih => rw [ih h, path?_of_addFlag hadd]
  | case7 g c option hoption valued hvalued =>
    cases h
    exact preloads_some.trans (or_iff_left (valued_of_optionByLetter? hoption hvalued))
  | case8 g c option hoption valued hvalued =>
    exact (preloads_of_addValue h).trans
      (or_iff_left (valued_of_optionByLetter? hoption hvalued))
  | case9 g c option hoption valued hvalued =>
    exact (preloads_of_addValue h).trans
      (or_iff_left (valued_of_optionByLetter? hoption hvalued))
  | _ => cases h

theorem preloads_of_addLong {name : String} {value : Option String}
    (h : g.addLong name value = .ok state) :
    Preloads state ↔ (g.path? .preloaded).isSome = true ∨ name = undashed preloadedFlag := by
  unfold addLong at h
  split at h
  · cases h
  · rename_i option hoption
    rw [← meaning_of_optionByName? hoption]
    split at h
    · rename_i valued value hvalued
      rw [preloads_of_addValue h, hvalued, Meaning.valued.injEq]
    · rename_i valued hvalued
      cases h
      rw [preloads_some, hvalued, Meaning.valued.injEq]
    · cases h
    · rename_i flag hflag
      obtain ⟨g', hadd, rfl⟩ := map_eq_ok_iff.mp h
      rw [preloads_none, path?_of_addFlag hadd, hflag, or_iff_left (by simp)]
    · cases h
    · cases h

theorem preloads_of_addWord (h : g.addWord text = .ok state) :
    Preloads state ↔ (g.path? .preloaded).isSome = true ∨ GivesPreloaded text := by
  rw [givesPreloaded_iff]
  unfold addWord at h
  split at h
  · rename_i name value hword
    simp only [preloads_of_addLong h, hword, Word.long.injEq, exists_and_left, exists_eq',
      and_true]
  · rename_i letters hword
    simp only [preloads_of_addLetters h, hword, reduceCtorEq, exists_const, or_false]
  · cases h
  · cases h

theorem not_givesPreloaded_of_plain (h : Word.ofText text = .plain) : ¬ GivesPreloaded text := by
  rw [givesPreloaded_iff, h]
  simp

/-- The option is given if some word gives it. -/
theorem Reads.isSome_path?_iff (h : Reads g words g') :
    (g'.path? .preloaded).isSome = true ↔
      (g.path? .preloaded).isSome = true ∨ ∃ word ∈ words, GivesPreloaded word := by
  induction h with
  | done => simp
  | closed =>
    have hdashes : ¬ GivesPreloaded "--" := by
      rw [givesPreloaded_iff]
      simp [Word.ofText_eq_separator_iff.mpr]
    simp [hdashes]
  | alone h _ ih =>
    simp only [ih, ← preloads_none, preloads_of_addWord h, List.mem_cons, exists_eq_or_imp,
      or_assoc]
  | paired h hplain hvalue _ ih =>
    rw [ih, isSome_path?_of_addValue hvalue, ← preloads_some, preloads_of_addWord h]
    simp [not_givesPreloaded_of_plain hplain, or_assoc]

/-! ## Coming back -/

variable {out : String}

theorem ofText_of_isAbsolute (h : isAbsolute out = true) : Word.ofText out = .plain := by
  obtain ⟨rest, hrest⟩ := List.head?_eq_some_iff.mp (of_decide_eq_true h)
  unfold Word.ofText
  rw [hrest]
  rfl

theorem addValue_preloaded (g : Given) (option : CliOption) (hout : isAbsolute out = true) :
    g.addValue option (.path .preloaded) out =
      if (g.path? .preloaded).isSome = true then .error (.usage (.repeated option.name))
      else .ok (g.withPath .preloaded out) := by
  have hne : out ≠ "" := by
    rintro rfl
    cases hout
  rw [addValue, if_neg hne]
  rfl

theorem parseWords_preloaded (g : Given) (hout : isAbsolute out = true) :
    parseWords g [preloadedFlag, out] =
      if (g.path? .preloaded).isSome = true then
        .error (.usage (.repeated (undashed preloadedFlag)))
      else .ok (g.withPath .preloaded out) := by
  obtain ⟨option, hoption, hname, hmeaning⟩ :
      ∃ option, optionByName? (undashed preloadedFlag) = some option ∧
        option.name = undashed preloadedFlag ∧ option.meaning = .valued (.path .preloaded) :=
    ⟨_, rfl, rfl, rfl⟩
  have hword : Word.ofText preloadedFlag = .long (undashed preloadedFlag) none := by decide
  have hadd : g.addWord preloadedFlag = .ok (g, some (option, .path .preloaded)) := by
    simp only [addWord, hword, addLong, hoption, hmeaning]
  rw [parseWords_cons (by decide), hadd]
  dsimp only
  rw [ofText_of_isAbsolute hout]
  dsimp only
  rw [addValue_preloaded g option hout, hname]
  by_cases hgiven : (g.path? .preloaded).isSome = true
  · rw [if_pos hgiven]
  · rw [if_neg hgiven]
    rfl

theorem runArgs_withPath (h : ¬ (g.path? .preloaded).isSome = true) (out : String) :
    (g.withPath .preloaded out).runArgs = { g.runArgs with preloaded := some out } := by
  rw [Option.not_isSome_iff_eq_none] at h
  simp only [runArgs, path?_withPath, h, reduceCtorEq, if_false, if_true, Option.or_none,
    Option.none_or]
  rfl

end Given

/-- An accepted command line gives the option with the value of a module if some word of it does. -/
theorem not_isSome_preloaded_iff {words : List String} {given : Given}
    (h : parseCommandLine words = .ok given) :
    ¬ (given.path? .preloaded).isSome = true ↔ ∀ word ∈ words, ¬ GivesPreloaded word := by
  rw [(Given.reads_of_parseWords h).isSome_path?_iff]
  simp [Given.path?]

namespace Bridge

/-- The arguments with which the script of a bridge runs the program: those that the program had,
and then the option with the file that the script has written. -/
def childArguments (b : Bridge) (out : String) : List String := b.arguments ++ [preloadedFlag, out]

/-- A program that comes back over a bridge is asked to do what it was asked before, with the value
of the module from a file, if and only if there are no two dashes among its words and none of these
names such a file already. Behind two dashes the option is a word that is not expected. -/
theorem reenters_iff (b : Bridge) {given : Given} {out : String}
    (hwords : parseCommandLine b.arguments = .ok given) (hout : isAbsolute out = true) :
    ((∃ again, parseCommandLine (b.childArguments out) = .ok again ∧
        again.runArgs = { given.runArgs with preloaded := some out }) ↔
      "--" ∉ b.arguments ∧ ∀ word ∈ b.arguments, ¬ GivesPreloaded word) ∧
    ("--" ∈ b.arguments → parseCommandLine (b.childArguments out) =
      .error (.usage (.unexpectedWord preloadedFlag))) := by
  have happend : parseCommandLine (b.childArguments out) =
      if "--" ∈ b.arguments then given.closed [preloadedFlag, out]
      else parseWords given [preloadedFlag, out] :=
    (Given.reads_of_parseWords hwords).parseWords_append _
  rw [happend, ← not_isSome_preloaded_iff hwords]
  by_cases hdashes : "--" ∈ b.arguments
  · rw [if_pos hdashes]
    refine ⟨iff_of_false ?_ fun h => h.1 hdashes, fun _ => rfl⟩
    rintro ⟨again, h, -⟩
    cases h
  · rw [if_neg hdashes, Given.parseWords_preloaded given hout]
    refine ⟨?_, fun h => absurd h hdashes⟩
    by_cases hpreloaded : (given.path? .preloaded).isSome = true
    · rw [if_pos hpreloaded]
      refine iff_of_false ?_ fun h => h.2 hpreloaded
      rintro ⟨again, h, -⟩
      cases h
    · rw [if_neg hpreloaded]
      exact iff_of_true ⟨_, rfl, Given.runArgs_withPath hpreloaded out⟩ ⟨hdashes, hpreloaded⟩

/-- Flags by their letters, a value that looks like two dashes, and a list in two places. -/
def mixedWords : Bridge where
  runtime := defaultRuntime
  program := "/viola"
  arguments := ["-lvp", "sub", "--only=size,naming", "-i=--", "--only", "quotes", "--no-color"]

theorem reenters_mixed_words :
    ∃ given again, parseCommandLine mixedWords.arguments = .ok given ∧
      isAbsolute "/m.json" = true ∧ "--" ∉ mixedWords.arguments ∧
      (∀ word ∈ mixedWords.arguments, ¬ GivesPreloaded word) ∧
      parseCommandLine (mixedWords.childArguments "/m.json") = .ok again ∧
      again.runArgs = { given.runArgs with preloaded := some "/m.json" } := by
  have hgiven : passes (fun given => given.path? .preloaded == none)
      (parseCommandLine mixedWords.arguments) = true := by decide +kernel
  obtain ⟨given, hwords, hnone⟩ := exists_of_passes hgiven
  have hother := (not_isSome_preloaded_iff hwords).mp (by rw [eq_of_beq hnone]; decide)
  have hdashes : "--" ∉ mixedWords.arguments := by decide
  have hout : isAbsolute "/m.json" = true := by decide
  obtain ⟨again, hagain, hsame⟩ := (reenters_iff mixedWords hwords hout).1.mpr ⟨hdashes, hother⟩
  exact ⟨given, again, hwords, hout, hdashes, hother, hagain, hsame⟩

/-- The program is asked to list the linters, and its words end with two dashes. -/
def dashedWords : Bridge where
  runtime := defaultRuntime
  program := "/viola"
  arguments := ["--list", "--"]

/-- What is asked before is read, but not when the program comes back. -/
theorem dashes_prevent_reentry :
    (∃ given, parseCommandLine dashedWords.arguments = .ok given ∧ given.runArgs.list = true) ∧
      (∀ word ∈ dashedWords.arguments, ¬ GivesPreloaded word) ∧ isAbsolute "/m.json" = true ∧
      parseCommandLine (dashedWords.childArguments "/m.json") =
        .error (.usage (.unexpectedWord "--preloaded-module")) := by
  have hgiven : passes (fun given => given.path? .preloaded == none && given.runArgs.list)
      (parseCommandLine dashedWords.arguments) = true := by decide +kernel
  obtain ⟨given, hwords, hchecks⟩ := exists_of_passes hgiven
  obtain ⟨hnone, hlist⟩ := Bool.and_eq_true_iff.mp hchecks
  have hother := (not_isSome_preloaded_iff hwords).mp (by rw [eq_of_beq hnone]; decide)
  exact ⟨⟨given, hwords, hlist⟩, hother, by decide, rfl⟩

end Bridge

end LintFront
