import LintFront.Module.Script
import LintFront.Document.Strict
import LintFront.Proofs.Reading

/-!
# Literals

A text is printed between double quotes, with escapes for what may not stand there. Whatever text
it is, the strict notation reads it back from its literal, and it does so wherever the literal
stands: where a literal ends does not depend on what follows it. The same goes for lists of texts.

* `Strict.Spelling`: how a character is spelled between quotes.
* `Strict.value_printText`, `Strict.value_listLiteral`: literals are read back.
* `outside?`: what stands outside the literals of a text.
* `outside?_printText`, `outside?_listLiteral`: nothing of a text stands outside its literal.
* `IsLiteral`: a whole document without control characters.
-/

namespace LintFront

/-! ## Characters -/

namespace Strict

/-- How a character is spelled between quotes. -/
inductive Spelling (c : Char) : List Char → Prop
  | plain (hquote : c ≠ '"') (hslash : c ≠ '\\') (hc : 0x20 ≤ c.toNat) : Spelling c [c]
  | letter {letter : Char} (h : escaped? letter = some c) : Spelling c ['\\', letter]
  | code (hc : c.toNat < 0x20) : Spelling c ('\\' :: 'u' :: hexPadded 4 c.toNat)

theorem spelling_printChar (c : Char) : Spelling c (printChar c) := by
  unfold printChar
  repeat' split
  · exact .letter (by simp_all [escaped?])
  · exact .letter (by simp_all [escaped?])
  · exact .letter (by simp_all [escaped?])
  · exact .letter (by simp_all [escaped?])
  · exact .letter (by simp_all [escaped?])
  · exact .letter (by simp_all [escaped?])
  · exact .letter (by simp_all [escaped?])
  · exact .code ‹_›
  · exact .plain ‹_› ‹_› (Nat.le_of_not_lt ‹_›)

/-- The codes of control characters have four digits. -/
theorem hexPadded_of_control {n : Nat} (hn : n < 0x20) :
    hexNumber? (hexPadded 4 n) = some n ∧ (hexPadded 4 n).length = 4 ∧
      ∀ d ∈ hexPadded 4 n, d ≠ '"' ∧ d ≠ '\\' ∧ 0x20 ≤ d.toNat := by
  have hcodes : ∀ n < 0x20, hexNumber? (hexPadded 4 n) = some n ∧ (hexPadded 4 n).length = 4 ∧
      (hexPadded 4 n).all (fun d => d != '"' && d != '\\' && decide (0x20 ≤ d.toNat)) = true := by
    decide
  obtain ⟨hnumber, hlength, hdigits⟩ := hcodes n hn
  refine ⟨hnumber, hlength, fun d hd => ?_⟩
  have hdigit := List.all_eq_true.mp hdigits d hd
  simpa only [Bool.and_eq_true, bne_iff_ne, decide_eq_true_eq, and_assoc] using hdigit

/-- The piece denotes the character, wherever it stands. -/
def Piece.Denotes (p : Piece) (c : Char) : Prop :=
  ∀ done rest, denote done (p :: rest) = denote (c :: done) rest

namespace Spelling

variable {c : Char} {cs : List Char}

/-- A spelled character is one piece. -/
theorem exists_piece (h : Spelling c cs) :
    ∃ p : Piece, p.Denotes c ∧
      ∀ done rest, pieces done (cs.map some ++ rest) = pieces (p :: done) rest := by
  cases h with
  | plain hquote hslash hc =>
    refine ⟨.glyph (some c), fun _ _ => rfl, fun done rest => ?_⟩
    rw [List.map_singleton, List.singleton_append, pieces.eq_6 _ _ _ hquote
      (fun _ _ _ _ _ _ => hslash) (fun _ _ _ => hslash) hslash, if_neg (by omega)]
  | @letter letter h =>
    refine ⟨.glyph (some c), fun _ _ => rfl, fun done rest => ?_⟩
    have hcode : letter ≠ 'u' := by
      rintro rfl
      cases h
    rw [List.map_cons, List.map_singleton, List.cons_append, List.singleton_append,
      pieces.eq_4 _ _ _ (fun _ _ _ _ _ _ => hcode), h]
  | code hc =>
    obtain ⟨hnumber, hlength, -⟩ := hexPadded_of_control hc
    refine ⟨.code c.toNat, fun done rest => ?_, fun done rest => ?_⟩
    · have hvalid : c.toNat.isValidChar := c.valid
      rw [denote.eq_def]
      dsimp only
      rw [if_neg (by omega), if_pos hvalid, Char.ofNat_toNat]
    · match hexPadded 4 c.toNat, hlength, hnumber with
      | [x, y, z, w], _, hnumber =>
        have hcode : hexCode? x y z w = some c.toNat := hnumber
        simp only [List.map_cons, List.map_nil, List.cons_append, List.nil_append]
        rw [pieces.eq_3, hcode]

/-- No spelling has a control character in it. -/
theorem le_toNat (h : Spelling c cs) : ∀ x ∈ cs, 0x20 ≤ x.toNat := by
  cases h with
  | plain _ _ hc => simpa using hc
  | @letter letter h =>
    have hletter : 0x20 ≤ letter.toNat := by
      unfold escaped? at h
      split at h <;> first | decide | cases h
    simpa using hletter
  | code hc =>
    obtain ⟨-, -, hdigits⟩ := hexPadded_of_control hc
    simpa using fun d hd => (hdigits d hd).2.2

end Spelling

/-! ## Texts -/

/-- A printed text is pieces that denote its characters. -/
theorem exists_pieces (cs : List Char) :
    ∃ ps : List Piece, (∀ done rest, denote done (ps ++ rest) = denote (cs.reverse ++ done) rest) ∧
      ∀ done rest, pieces done ((cs.flatMap printChar).map some ++ rest) =
        pieces (ps.reverse ++ done) rest := by
  induction cs with
  | nil => exact ⟨[], fun _ _ => rfl, fun _ _ => rfl⟩
  | cons c cs ih =>
    obtain ⟨p, hdenotes, hpieces⟩ := (spelling_printChar c).exists_piece
    obtain ⟨ps, hall, hrest⟩ := ih
    refine ⟨p :: ps, fun done rest => ?_, fun done rest => ?_⟩
    · rw [List.cons_append, hdenotes, hall, List.reverse_cons, List.append_assoc,
        List.singleton_append]
    · rw [List.flatMap_cons, List.map_append, List.append_assoc, hpieces, hrest, List.reverse_cons,
        List.append_assoc, List.singleton_append]

theorem quotedText_printed (text : String) (rest : List Glyph) :
    quotedText ((text.toList.flatMap printChar).map some ++ some '"' :: rest) =
      some (.ok text, rest) := by
  obtain ⟨ps, hdenote, hpieces⟩ := exists_pieces text.toList
  have hdone := hdenote [] []
  rw [List.append_nil, List.append_nil, denote, List.reverse_reverse] at hdone
  rw [quotedText, hpieces, pieces, Option.map_some, List.append_nil]
  dsimp only
  rw [List.reverse_reverse, hdone, Except.map, String.ofList_toList]

/-- A printed text is read back, whatever follows it. -/
theorem value_printText (depth fuel : Nat) (text : String) (rest : List Glyph) :
    value depth (fuel + 1) ((printText text).map some ++ rest) = (.text (.ok text), some rest) := by
  have hshape : (printText text).map some ++ rest =
      some '"' :: ((text.toList.flatMap printChar).map some ++ some '"' :: rest) := by
    simp [printText]
  have hblanks : ∀ more, skipBlanks (some '"' :: more) = some '"' :: more := fun _ => rfl
  rw [hshape, value, hblanks]
  simp only [quotedText_printed]

theorem le_toNat_of_mem_printText {text : String} : ∀ c ∈ printText text, 0x20 ≤ c.toNat := by
  intro c hc
  rw [printText, List.mem_append, List.mem_cons, List.mem_flatMap, List.mem_singleton] at hc
  rcases hc with (rfl | ⟨x, -, hc⟩) | rfl
  · decide
  · exact (spelling_printChar x).le_toNat c hc
  · decide

/-! ## Lists of texts -/

/-- The items of a printed list behind its first one. -/
def furtherItems (texts : List String) : List Char :=
  texts.flatMap fun text => ',' :: printText text

theorem flatten_intersperse_cons {α : Type} (separator first : List α) (parts : List (List α)) :
    ((first :: parts).intersperse separator).flatten =
      first ++ parts.flatMap fun part => separator ++ part := by
  induction parts generalizing first with
  | nil => simp
  | cons next parts ih => simp [ih]

theorem listLiteral_nil : BridgeScript.listLiteral [] = ['[', ']'] := rfl

theorem listLiteral_cons (text : String) (texts : List String) :
    BridgeScript.listLiteral (text :: texts) =
      '[' :: (printText text ++ (furtherItems texts ++ [']'])) := by
  simp [BridgeScript.listLiteral, printParts, flatten_intersperse_cons, furtherItems,
    List.flatMap_map]

theorem listItems_comma (depth fuel : Nat) (text : String) (rest : List Glyph) :
    listItems depth false (fuel + 1) (some ',' :: ((printText text).map some ++ rest)) =
      listItem depth fuel ((printText text).map some ++ rest) := rfl

theorem listItem_printText (depth fuel : Nat) (text : String) (rest : List Glyph) :
    listItem depth (fuel + 2) ((printText text).map some ++ rest) =
      (.text (.ok text) :: (listItems depth false (fuel + 1) rest).1,
        (listItems depth false (fuel + 1) rest).2) := by
  rw [listItem, value_printText]

theorem listItems_furtherItems (depth : Nat) (texts : List String) (rest : List Glyph) :
    ∀ fuel, 2 * texts.length < fuel →
      listItems depth false fuel ((furtherItems texts).map some ++ some ']' :: rest) =
        (texts.map fun text => .text (.ok text), none, some rest) := by
  induction texts with
  | nil =>
    intro fuel hfuel
    obtain ⟨fuel, rfl⟩ := Nat.exists_eq_add_of_le' hfuel
    rfl
  | cons text texts ih =>
    intro fuel hfuel
    rw [List.length_cons] at hfuel
    obtain ⟨fuel, rfl⟩ : ∃ n, fuel = n + 2 + 1 := ⟨fuel - 3, by omega⟩
    have hshape : (furtherItems (text :: texts)).map some ++ some ']' :: rest =
        some ',' :: ((printText text).map some ++
          ((furtherItems texts).map some ++ some ']' :: rest)) := by
      simp [furtherItems]
    rw [hshape, listItems_comma, listItem_printText, ih (fuel + 1) (by omega), List.map_cons]

/-- A list that starts with a text, as it is read from its first item on. -/
theorem value_bracket (depth fuel : Nat) (text : String) (rest : List Glyph) :
    value depth (fuel + 2) (some '[' :: ((printText text).map some ++ rest)) =
      let (items, stop, left) := listItem (depth + 1) fuel ((printText text).map some ++ rest)
      (nested depth (.list items stop), left) := rfl

/-- A printed list of texts is read back, whatever follows it. -/
theorem value_listLiteral {depth : Nat} (hdepth : depth < deepest) (texts : List String)
    (rest : List Glyph) : ∀ fuel, 2 * texts.length + 1 < fuel →
      value depth fuel ((BridgeScript.listLiteral texts).map some ++ rest) =
        (.list (texts.map fun text => .text (.ok text)) none, some rest) := by
  have hnested : ∀ t, nested depth t = t := fun _ => if_pos hdepth
  intro fuel hfuel
  obtain ⟨fuel, rfl⟩ : ∃ n, fuel = n + 2 := ⟨fuel - 2, by omega⟩
  cases texts with
  | nil =>
    have hempty : value depth (fuel + 2) (some '[' :: some ']' :: rest) =
        (nested depth (.list [] none), some rest) := rfl
    rw [listLiteral_nil]
    exact hempty.trans (by rw [hnested]; rfl)
  | cons text texts =>
    rw [List.length_cons] at hfuel
    obtain ⟨fuel, rfl⟩ : ∃ n, fuel = n + 2 := ⟨fuel - 2, by omega⟩
    have hshape : (BridgeScript.listLiteral (text :: texts)).map some ++ rest =
        some '[' :: ((printText text).map some ++
          ((furtherItems texts).map some ++ some ']' :: rest)) := by
      simp [listLiteral_cons]
    rw [hshape, value_bracket, listItem_printText, listItems_furtherItems _ _ _ _ (by omega)]
    dsimp only
    rw [hnested, List.map_cons]

theorem le_toNat_of_mem_listLiteral {texts : List String} :
    ∀ c ∈ BridgeScript.listLiteral texts, 0x20 ≤ c.toNat := by
  have hbrackets : 0x20 ≤ '['.toNat ∧ 0x20 ≤ ']'.toNat ∧ 0x20 ≤ ','.toNat := by decide
  obtain ⟨hopening, hclosing, hcomma⟩ := hbrackets
  intro c hc
  cases texts with
  | nil =>
    simp only [listLiteral_nil, List.mem_cons, List.not_mem_nil, or_false] at hc
    rcases hc with rfl | rfl
    · exact hopening
    · exact hclosing
  | cons text texts =>
    simp only [listLiteral_cons, furtherItems, List.mem_cons, List.mem_append, List.mem_flatMap,
      List.not_mem_nil, or_false] at hc
    rcases hc with rfl | hc | ⟨other, -, rfl | hc⟩ | rfl
    · exact hopening
    · exact le_toNat_of_mem_printText c hc
    · exact hcomma
    · exact le_toNat_of_mem_printText c hc
    · exact hclosing

end Strict

/-! ## Whole documents -/

/-- The characters are one whole document in the strict notation, and none of them is a control
character. -/
structure IsLiteral (chars : List Char) (v : Value) : Prop where
  reads : Strict.readValue (chars.map some) = .ok v
  plain : ∀ c ∈ chars, 0x20 ≤ c.toNat

theorem Strict.readValue_of_value {cs : List Glyph} {t : Tree}
    (h : value 0 (3 * cs.length + 3) cs = (t, some [])) : readValue cs = t.toValue := by
  have hread : read cs = (t, none) := by
    rw [read, h]
    rfl
  rw [readValue, typed, hread]
  dsimp only
  cases t.toValue <;> rfl

theorem Tree.itemValues_texts (texts : List String) :
    itemValues (texts.map fun text => .text (.ok text)) = .ok (texts.map .text) := by
  induction texts with
  | nil => rfl
  | cons text texts ih =>
    exact bind_eq_ok_iff.mpr ⟨.text text, rfl, bind_eq_ok_iff.mpr ⟨_, ih, rfl⟩⟩

theorem isLiteral_printText (text : String) : IsLiteral (printText text) (.text text) where
  reads := by
    have hvalue := Strict.value_printText 0 (3 * ((printText text).map some).length + 2) text []
    rw [List.append_nil] at hvalue
    exact Strict.readValue_of_value hvalue
  plain := Strict.le_toNat_of_mem_printText

theorem length_listLiteral (texts : List String) :
    2 * texts.length ≤ (BridgeScript.listLiteral texts).length := by
  have hfurther : ∀ others, 2 * others.length ≤ (Strict.furtherItems others).length := by
    intro others
    induction others with
    | nil => exact Nat.zero_le _
    | cons text others ih =>
      simp only [Strict.furtherItems, printText, List.flatMap_cons, List.length_cons,
        List.length_append] at ih ⊢
      omega
  cases texts with
  | nil => exact Nat.zero_le _
  | cons text texts =>
    have hrest := hfurther texts
    simp only [Strict.listLiteral_cons, printText, List.length_cons, List.length_append] at hrest ⊢
    omega

theorem isLiteral_listLiteral (texts : List String) :
    IsLiteral (BridgeScript.listLiteral texts) (textsValue texts) where
  reads := by
    have hlength := length_listLiteral texts
    have hdepth : 0 < Strict.deepest := by decide
    have hvalue := Strict.value_listLiteral hdepth texts []
      (3 * ((BridgeScript.listLiteral texts).map some).length + 3)
      (by rw [List.length_map]; omega)
    rw [List.append_nil] at hvalue
    rw [Strict.readValue_of_value hvalue]
    exact bind_eq_ok_iff.mpr ⟨_, Tree.itemValues_texts texts, rfl⟩
  plain := Strict.le_toNat_of_mem_listLiteral

/-! ## Outside of literals -/

/-- Where a text is looked at: outside of literals, in one of them, or behind a backslash there. -/
inductive Scan
  | code
  | literal
  | escape

/-- What stands outside the literals of a text, which leave their quotes only. None if a literal
does not end, or has a control character in it. -/
def outsideFrom : Scan → List Char → Option (List Char)
  | .code, [] => some []
  | _, [] => none
  | .code, c :: rest => (outsideFrom (if c = '"' then .literal else .code) rest).map (c :: ·)
  | .literal, c :: rest =>
    if c = '"' then (outsideFrom .code rest).map (c :: ·)
    else if c.toNat < 0x20 then none
    else outsideFrom (if c = '\\' then .escape else .literal) rest
  | .escape, c :: rest => if c.toNat < 0x20 then none else outsideFrom .literal rest

/-- What stands outside the literals of a text. -/
def outside? (chars : List Char) : Option (List Char) := outsideFrom .code chars

theorem outsideFrom_append {scan : Scan} {chars code : List Char}
    (h : outsideFrom scan chars = some code) (rest : List Char) :
    outsideFrom scan (chars ++ rest) = (outside? rest).map (code ++ ·) := by
  induction chars generalizing scan code with
  | nil =>
    cases scan with
    | code =>
      cases h
      simp [outside?]
    | literal => cases h
    | escape => cases h
  | cons c chars ih =>
    rw [List.cons_append]
    cases scan with
    | code =>
      rw [outsideFrom] at h ⊢
      obtain ⟨code, hcode, rfl⟩ := Option.map_eq_some_iff.mp h
      rw [ih hcode, Option.map_map]
      rfl
    | literal =>
      rw [outsideFrom] at h ⊢
      split at h
      · rename_i hquote
        obtain ⟨code, hcode, rfl⟩ := Option.map_eq_some_iff.mp h
        rw [if_pos hquote, ih hcode, Option.map_map]
        rfl
      · rename_i hquote
        split at h
        · cases h
        · rename_i hc
          rw [if_neg hquote, if_neg hc, ih h]
    | escape =>
      rw [outsideFrom] at h ⊢
      split at h
      · cases h
      · rename_i hc
        rw [if_neg hc, ih h]

/-- Parts that each have nothing but whole literals stand beside each other. -/
theorem outside?_append {chars code : List Char} (h : outside? chars = some code)
    (rest : List Char) : outside? (chars ++ rest) = (outside? rest).map (code ++ ·) :=
  outsideFrom_append h rest

theorem outsideFrom_literal_plain {cs : List Char}
    (h : ∀ c ∈ cs, c ≠ '"' ∧ c ≠ '\\' ∧ 0x20 ≤ c.toNat) (rest : List Char) :
    outsideFrom .literal (cs ++ rest) = outsideFrom .literal rest := by
  induction cs with
  | nil => rfl
  | cons c cs ih =>
    obtain ⟨⟨hquote, hslash, hc⟩, hcs⟩ := List.forall_mem_cons.mp h
    rw [List.cons_append, outsideFrom, if_neg hquote, if_neg (by omega), if_neg hslash, ih hcs]

/-- A spelled character does not end a literal. -/
theorem Strict.Spelling.outsideFrom_append {c : Char} {cs : List Char} (h : Spelling c cs)
    (rest : List Char) : outsideFrom .literal (cs ++ rest) = outsideFrom .literal rest := by
  have hescape : ∀ letter more, 0x20 ≤ letter.toNat →
      outsideFrom .literal ('\\' :: letter :: more) = outsideFrom .literal more := by
    intro letter more hletter
    rw [outsideFrom, if_neg (by decide), if_neg (by decide), if_pos rfl, outsideFrom,
      if_neg (by omega)]
  cases h with
  | plain hquote hslash hc => exact outsideFrom_literal_plain (by simp [hquote, hslash, hc]) rest
  | @letter letter h => exact hescape letter rest ((Spelling.letter h).le_toNat letter (by simp))
  | code hc =>
    obtain ⟨-, -, hdigits⟩ := hexPadded_of_control hc
    rw [List.cons_append, List.cons_append, hescape _ _ (by decide)]
    exact outsideFrom_literal_plain hdigits rest

/-- Of a printed text only the quotes stand outside. -/
theorem outside?_printText (text : String) : outside? (printText text) = some ['"', '"'] := by
  have hspelled : ∀ cs : List Char, outsideFrom .literal (cs.flatMap printChar ++ ['"']) =
      some ['"'] := by
    intro cs
    induction cs with
    | nil => rfl
    | cons c cs ih =>
      rw [List.flatMap_cons, List.append_assoc, (Strict.spelling_printChar c).outsideFrom_append,
        ih]
  rw [printText, List.cons_append, outside?, outsideFrom, if_pos rfl, hspelled, Option.map_some]

/-- Of a printed list of texts the same stands outside as of a list of so many empty texts. -/
theorem outside?_listLiteral (texts : List String) :
    outside? (BridgeScript.listLiteral texts) =
      some (BridgeScript.listLiteral (texts.map fun _ => "")) := by
  have hempty : printText "" = ['"', '"'] := rfl
  have hfurther : ∀ others, outside? (Strict.furtherItems others ++ [']']) =
      some (Strict.furtherItems (others.map fun _ => "") ++ [']']) := by
    intro others
    induction others with
    | nil => rfl
    | cons text others ih =>
      have hcomma : outside? (',' :: printText text) = some (',' :: printText "") := by
        rw [outside?, outsideFrom, if_neg (by decide)]
        exact congrArg (Option.map (',' :: ·)) (outside?_printText text)
      simp only [Strict.furtherItems, List.map_cons, List.flatMap_cons, List.append_assoc] at ih ⊢
      rw [outside?_append hcomma, ih, Option.map_some]
  cases texts with
  | nil => rfl
  | cons text texts =>
    have hbracket : outside? ['['] = some ['['] := rfl
    rw [List.map_cons, Strict.listLiteral_cons, Strict.listLiteral_cons, ← List.singleton_append,
      outside?_append hbracket, outside?_append (outside?_printText text), hfurther, hempty]
    rfl

end LintFront
