import LintFront.Module.FileUrl
import LintFront.Proofs.Places
import LintFront.Text.Glyph
import Mathlib.Data.List.TakeWhile

/-!
# File URLs

The URL of a path spells some characters by their bytes. Reading it goes the other way: the path of
a URL ends where a query or a fragment would begin, percent signs give bytes, and the bytes give
characters again. That leads back to the path, whatever characters are in its names.

* `textOfBytes?_utf8`: the bytes of a text are that text.
* `percentDecoded?`: the bytes that the path of a URL spells.
* `pathOfUrl?`: the path that a file URL leads to.
* `pathOfUrl?_fileUrl?`: the URL of a path leads to that path.
-/

namespace LintFront

/-! ## Characters and their bytes -/

theorem toNat_ofNat_of_lt {n : Nat} (h : n < 256) : (UInt8.ofNat n).toNat = n := by
  rw [UInt8.toNat_ofNat', Nat.mod_eq_of_lt h]

theorem continuation?_ofNat (n : Nat) :
    continuation? (UInt8.ofNat (n % 64 + 128)) = some (n % 64) := by
  have hbyte := toNat_ofNat_of_lt (n := n % 64 + 128) (by omega)
  simp only [continuation?, UInt8.le_iff_toNat_le, UInt8.lt_iff_toNat_lt, hbyte, UInt8.reduceToNat]
  rw [if_pos (by omega), Nat.add_sub_cancel]

theorem charFrom?_of_eq {c : Char} {least code : Nat} (hcode : code = c.toNat)
    (h : least ≤ c.toNat) : charFrom? least code = some c := by
  have hvalid : c.toNat.isValidChar := c.valid
  rw [hcode, charFrom?, if_pos ⟨h, hvalid⟩, Char.ofNat_toNat]

section FirstChar

variable {c : Char} {a b₁ b₂ b₃ : UInt8} {n₁ n₂ n₃ : Nat} (rest : List UInt8)

theorem firstChar?_one (ha : a.toNat < 0x80) (hcode : a.toNat = c.toNat) :
    firstChar? (a :: rest) = some (c, 1) := by
  simp only [firstChar?, UInt8.lt_iff_toNat_lt, UInt8.reduceToNat]
  rw [if_pos ha, hcode, Char.ofNat_toNat]

theorem firstChar?_two (hlow : 0xC0 ≤ a.toNat) (hhigh : a.toNat < 0xE0)
    (h₁ : continuation? b₁ = some n₁) (hcode : (a.toNat - 0xC0) * 64 + n₁ = c.toNat)
    (hc : 0x80 ≤ c.toNat) : firstChar? (a :: b₁ :: rest) = some (c, 2) := by
  have hnot : ∀ n ≤ 0xC0, ¬ a.toNat < n := fun n hn => Nat.not_lt.mpr (Nat.le_trans hn hlow)
  simp only [firstChar?, UInt8.lt_iff_toNat_lt, UInt8.reduceToNat]
  rw [if_neg (hnot _ (by decide)), if_neg (hnot _ (by decide)), if_pos hhigh]
  refine Option.bind_eq_some_iff.mpr ⟨n₁, h₁, ?_⟩
  exact Option.bind_eq_some_iff.mpr ⟨c, charFrom?_of_eq hcode hc, rfl⟩

theorem firstChar?_three (hlow : 0xE0 ≤ a.toNat) (hhigh : a.toNat < 0xF0)
    (h₁ : continuation? b₁ = some n₁) (h₂ : continuation? b₂ = some n₂)
    (hcode : (a.toNat - 0xE0) * 4096 + n₁ * 64 + n₂ = c.toNat) (hc : 0x800 ≤ c.toNat) :
    firstChar? (a :: b₁ :: b₂ :: rest) = some (c, 3) := by
  have hnot : ∀ n ≤ 0xE0, ¬ a.toNat < n := fun n hn => Nat.not_lt.mpr (Nat.le_trans hn hlow)
  simp only [firstChar?, UInt8.lt_iff_toNat_lt, UInt8.reduceToNat]
  rw [if_neg (hnot _ (by decide)), if_neg (hnot _ (by decide)), if_neg (hnot _ (by decide)),
    if_pos hhigh]
  refine Option.bind_eq_some_iff.mpr ⟨n₁, h₁, ?_⟩
  refine Option.bind_eq_some_iff.mpr ⟨n₂, h₂, ?_⟩
  exact Option.bind_eq_some_iff.mpr ⟨c, charFrom?_of_eq hcode hc, rfl⟩

theorem firstChar?_four (hlow : 0xF0 ≤ a.toNat) (hhigh : a.toNat < 0xF8)
    (h₁ : continuation? b₁ = some n₁) (h₂ : continuation? b₂ = some n₂)
    (h₃ : continuation? b₃ = some n₃)
    (hcode : (a.toNat - 0xF0) * 262144 + n₁ * 4096 + n₂ * 64 + n₃ = c.toNat)
    (hc : 0x10000 ≤ c.toNat) : firstChar? (a :: b₁ :: b₂ :: b₃ :: rest) = some (c, 4) := by
  have hnot : ∀ n ≤ 0xF0, ¬ a.toNat < n := fun n hn => Nat.not_lt.mpr (Nat.le_trans hn hlow)
  simp only [firstChar?, UInt8.lt_iff_toNat_lt, UInt8.reduceToNat]
  rw [if_neg (hnot _ (by decide)), if_neg (hnot _ (by decide)), if_neg (hnot _ (by decide)),
    if_neg (hnot _ (by decide)), if_pos hhigh]
  refine Option.bind_eq_some_iff.mpr ⟨n₁, h₁, ?_⟩
  refine Option.bind_eq_some_iff.mpr ⟨n₂, h₂, ?_⟩
  refine Option.bind_eq_some_iff.mpr ⟨n₃, h₃, ?_⟩
  exact Option.bind_eq_some_iff.mpr ⟨c, charFrom?_of_eq hcode hc, rfl⟩

end FirstChar

/-- The first byte tells how many there are, and the bits of all of them are those of the code. -/
theorem firstChar?_utf8EncodeChar (c : Char) (rest : List UInt8) :
    firstChar? (String.utf8EncodeChar c ++ rest) =
      some (c, (String.utf8EncodeChar c).length) := by
  have hval : c.val.toNat = c.toNat := rfl
  have hmax : c.toNat < 0x110000 := by
    have hvalid := c.valid
    simp only [UInt32.isValidChar, Nat.isValidChar, hval] at hvalid
    omega
  have hnext := fun n => continuation?_ofNat n
  unfold String.utf8EncodeChar
  simp only [hval]
  split
  · have hbyte := toNat_ofNat_of_lt (n := c.toNat) (by omega)
    exact firstChar?_one rest (by omega) hbyte
  split
  · have hbyte := toNat_ofNat_of_lt (n := c.toNat / 64 % 32 + 192) (by omega)
    exact firstChar?_two rest (by omega) (by omega) (hnext _) (by omega) (by omega)
  split
  · have hbyte := toNat_ofNat_of_lt (n := c.toNat / 4096 % 16 + 224) (by omega)
    exact firstChar?_three rest (by omega) (by omega) (hnext _) (hnext _) (by omega) (by omega)
  · have hbyte := toNat_ofNat_of_lt (n := c.toNat / 262144 % 8 + 240) (by omega)
    exact firstChar?_four rest (by omega) (by omega) (hnext _) (hnext _) (hnext _) (by omega)
      (by omega)

theorem glyphsFrom_skip (bytes rest : List UInt8) :
    glyphsFrom bytes.length (bytes ++ rest) = glyphsFrom 0 rest := by
  induction bytes with
  | nil => rfl
  | cons b bytes ih => exact ih

theorem glyphsFrom_utf8EncodeChar (c : Char) (rest : List UInt8) :
    glyphsFrom 0 (String.utf8EncodeChar c ++ rest) = some c :: glyphsFrom 0 rest := by
  have hfirst := firstChar?_utf8EncodeChar c rest
  cases hbytes : String.utf8EncodeChar c with
  | nil => exact absurd hbytes String.utf8EncodeChar_ne_nil
  | cons b bytes =>
    rw [hbytes, List.cons_append] at hfirst
    rw [List.cons_append, glyphsFrom, hfirst]
    exact congrArg (some c :: ·) (glyphsFrom_skip bytes rest)

/-- The bytes of a text are that text. -/
theorem textOfBytes?_utf8 (text : String) :
    textOfBytes? (text.toList.flatMap String.utf8EncodeChar) = some text := by
  have hglyphs : ∀ cs : List Char,
      glyphsOfBytes (cs.flatMap String.utf8EncodeChar) = cs.map some := by
    intro cs
    induction cs with
    | nil => rfl
    | cons c cs ih =>
      rw [List.flatMap_cons, glyphsOfBytes, glyphsFrom_utf8EncodeChar]
      exact congrArg (some c :: ·) ih
  have hall : (text.toList.map some).mapM id = some text.toList := by
    rw [List.mapM_map]
    exact List.mapM_pure.trans (congrArg some (List.map_id _))
  rw [textOfBytes?, hglyphs, hall, Option.map_some, String.ofList_toList]

/-! ## Percent signs -/

/-- The bytes that the path of a URL spells. A percent sign is followed by the two digits of a byte,
and every other character stands for its own bytes. -/
def percentDecoded? : List Char → Option (List UInt8)
  | [] => some []
  | '%' :: high :: low :: rest => do
    let byte ← hexNumber? [high, low]
    let bytes ← percentDecoded? rest
    return byte.toUInt8 :: bytes
  | '%' :: _ => none
  | c :: rest => (percentDecoded? rest).map (String.utf8EncodeChar c ++ ·)

/-- The digit of a byte, in upper case. -/
def byteDigit (n : Nat) : Char :=
  if n < 10 then Char.ofNat ('0'.toNat + n) else Char.ofNat ('A'.toNat + n - 10)

theorem hexByte_eq (n : Nat) : hexByte n = [byteDigit (n / 16), byteDigit (n % 16)] := rfl

/-- The digits of a byte are read back, and can stand in a URL. -/
theorem hexDigit?_byteDigit : ∀ n < 16, hexDigit? (byteDigit n) = some n ∧
    isEncoded (byteDigit n) = false := by
  decide

theorem percentDecoded?_percentByte (b : UInt8) (rest : List Char) :
    percentDecoded? (percentByte b ++ rest) = (percentDecoded? rest).map (b :: ·) := by
  have hb := b.toNat_lt
  obtain ⟨hhigh, -⟩ := hexDigit?_byteDigit (b.toNat / 16) (by omega)
  obtain ⟨hlow, -⟩ := hexDigit?_byteDigit (b.toNat % 16) (by omega)
  have hnumber : hexNumber? [byteDigit (b.toNat / 16), byteDigit (b.toNat % 16)] =
      some b.toNat := by
    simp only [hexNumber?, hexValue?, hhigh, hlow, Option.bind_some, Option.some.injEq]
    omega
  rw [percentByte, hexByte_eq, List.cons_append, List.cons_append, List.cons_append,
    List.nil_append, percentDecoded?, hnumber]
  cases percentDecoded? rest <;> simp

theorem percentDecoded?_percentBytes (bytes : List UInt8) (rest : List Char) :
    percentDecoded? (bytes.flatMap percentByte ++ rest) =
      (percentDecoded? rest).map (bytes ++ ·) := by
  induction bytes with
  | nil => simp
  | cons b bytes ih =>
    rw [List.flatMap_cons, List.append_assoc, percentDecoded?_percentByte, ih, Option.map_map]
    rfl

theorem percentDecoded?_cons {c : Char} (hc : c ≠ '%') (rest : List Char) :
    percentDecoded? (c :: rest) = (percentDecoded? rest).map (String.utf8EncodeChar c ++ ·) := by
  rw [percentDecoded?]
  · exact fun _ _ _ h => absurd h hc
  · exact hc

/-- An encoded character spells its bytes. -/
theorem percentDecoded?_percentEncoded (c : Char) (rest : List Char) :
    percentDecoded? (percentEncoded c ++ rest) =
      (percentDecoded? rest).map (String.utf8EncodeChar c ++ ·) := by
  rw [percentEncoded]
  split
  · exact percentDecoded?_percentBytes _ _
  · rename_i hc
    refine percentDecoded?_cons ?_ rest
    rintro rfl
    exact hc (by decide)

/-- What stands in an encoded character needs no encoding, but for percent signs. -/
theorem not_isEncoded_of_mem_percentEncoded {c x : Char} (h : x ∈ percentEncoded c) :
    x = '%' ∨ isEncoded x = false := by
  rw [percentEncoded] at h
  split at h
  · obtain ⟨b, -, hx⟩ := List.mem_flatMap.mp h
    have hb := b.toNat_lt
    rw [percentByte, hexByte_eq] at hx
    simp only [List.mem_cons, List.not_mem_nil, or_false] at hx
    rcases hx with rfl | rfl | rfl
    · exact Or.inl rfl
    · exact Or.inr (hexDigit?_byteDigit _ (by omega)).2
    · exact Or.inr (hexDigit?_byteDigit _ (by omega)).2
  · rename_i hc
    obtain rfl := List.mem_singleton.mp h
    exact Or.inr (by simpa using hc)

/-! ## Names -/

/-- Names on a path, each behind a slash. -/
def slashedNames (names : List String) : List Char := names.flatMap fun name => '/' :: name.toList

theorem percentDecoded?_encodedName (name : String) (rest : List Char) :
    percentDecoded? (encodedName name ++ rest) =
      (percentDecoded? rest).map (('/' :: name.toList).flatMap String.utf8EncodeChar ++ ·) := by
  have hchars : ∀ cs : List Char, percentDecoded? (cs.flatMap percentEncoded ++ rest) =
      (percentDecoded? rest).map (cs.flatMap String.utf8EncodeChar ++ ·) := by
    intro cs
    induction cs with
    | nil => simp
    | cons c cs ih =>
      rw [List.flatMap_cons, List.append_assoc, percentDecoded?_percentEncoded, ih, Option.map_map,
        List.flatMap_cons]
      simp [Function.comp_def]
  rw [encodedName, List.cons_append, percentDecoded?_cons (by decide), hchars, Option.map_map,
    List.flatMap_cons]
  simp [Function.comp_def]

theorem percentDecoded?_encodedNames (names : List String) :
    percentDecoded? (names.flatMap encodedName) =
      some ((slashedNames names).flatMap String.utf8EncodeChar) := by
  induction names with
  | nil => rfl
  | cons name names ih =>
    rw [List.flatMap_cons, percentDecoded?_encodedName, ih, Option.map_some, ← List.flatMap_append]
    rfl

theorem toList_toPath {names : List String} (hne : names ≠ []) :
    (Place.toPath names).toList = slashedNames names := by
  induction names with
  | nil => exact absurd rfl hne
  | cons name names ih =>
    cases names with
    | nil => simp [Place.toPath, slashedNames]
    | cons next rest =>
      have hpath : Place.toPath (name :: next :: rest) =
          "/" ++ name ++ Place.toPath (next :: rest) := by
        simp only [Place.toPath, String.intercalate_cons_cons, String.append_assoc]
      rw [hpath, String.toList_append, ih (List.cons_ne_nil _ _), String.toList_append]
      rfl

/-! ## Whole URLs -/

/-- The path that a file URL leads to: what its path spells up to a query or a fragment. -/
def pathOfUrl? (url : String) : Option String :=
  match url.toList with
  | 'f' :: 'i' :: 'l' :: 'e' :: ':' :: '/' :: '/' :: rest =>
    (percentDecoded? (rest.takeWhile fun c => c != '?' && c != '#')).bind textOfBytes?
  | _ => none

/-- The path of the URL of names. -/
def encodedPath (names : List String) : List Char :=
  if (names.flatMap encodedName).isEmpty then ['/'] else names.flatMap encodedName

theorem percentDecoded?_encodedPath (names : List String) :
    (percentDecoded? (encodedPath names)).bind textOfBytes? = some (Place.toPath names) := by
  cases names with
  | nil => decide
  | cons name names =>
    have hchars := toList_toPath (List.cons_ne_nil name names)
    rw [encodedPath, if_neg (by simp [encodedName]), percentDecoded?_encodedNames,
      Option.bind_some, ← hchars, textOfBytes?_utf8]

/-- Nothing in the path of a URL begins a query or a fragment. -/
theorem takeWhile_encodedPath (names : List String) :
    (encodedPath names).takeWhile (fun c => c != '?' && c != '#') = encodedPath names := by
  refine List.takeWhile_eq_self_iff.mpr fun c hc => ?_
  have hplain : c = '/' ∨ c = '%' ∨ isEncoded c = false := by
    rw [encodedPath] at hc
    split at hc
    · exact Or.inl (List.mem_singleton.mp hc)
    · obtain ⟨name, -, hc⟩ := List.mem_flatMap.mp hc
      rcases List.mem_cons.mp hc with rfl | hc
      · exact Or.inl rfl
      · obtain ⟨x, -, hc⟩ := List.mem_flatMap.mp hc
        exact Or.inr (not_isEncoded_of_mem_percentEncoded hc)
  have hquery : c ≠ '?' := by
    rintro rfl
    revert hplain
    decide
  have hfragment : c ≠ '#' := by
    rintro rfl
    revert hplain
    decide
  simp [hquery, hfragment]

theorem pathOfUrl?_file (rest : List Char) :
    pathOfUrl? (String.ofList ("file://".toList ++ rest)) =
      (percentDecoded? (rest.takeWhile fun c => c != '?' && c != '#')).bind textOfBytes? := by
  rw [pathOfUrl?, String.toList_ofList]
  rfl

/-- The URL of an absolute path leads to that path, without repeated slashes and single dots. -/
theorem pathOfUrl?_fileUrl? {path : String} (h : isAbsolute path = true) :
    ∃ url found, fileUrl? path = some url ∧ pathOfUrl? url = some found ∧
      pathParts found = pathParts path := by
  obtain ⟨names, hnames⟩ : ∃ names, names = (segmentsOf path).filter (!isIdle ·) := ⟨_, rfl⟩
  have hslash : ∀ name ∈ names, '/' ∉ name.toList := by
    intro name hname
    rw [hnames] at hname
    obtain ⟨part, hpart, rfl⟩ := List.mem_map.mp (List.mem_filter.mp hname).1
    rw [String.toList_ofList]
    exact (mem_segments hpart).1
  have hidle : ∀ name ∈ names, isIdle name = false := by
    intro name hname
    rw [hnames] at hname
    simpa using (List.mem_filter.mp hname).2
  have hurl : fileUrl? path = some (String.ofList ("file://".toList ++ encodedPath names)) := by
    rw [fileUrl?, if_pos h, hnames]
    rfl
  refine ⟨_, Place.toPath names, hurl, ?_, ?_⟩
  · rw [pathOfUrl?_file, takeWhile_encodedPath, percentDecoded?_encodedPath]
  · rw [Place.pathParts_toPath hslash hidle, pathParts, if_pos h, hnames]

end LintFront
