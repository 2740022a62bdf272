/-!
# Bytes as characters

* `Glyph`: a character, or a byte that is no part of one.
* `glyphsOfBytes`: the glyphs of a sequence of bytes in UTF-8.
* `textOfBytes?`: its text, if every byte belongs to a character.
-/

namespace LintFront

/-- A character, or `none` for a byte that is no part of one. -/
abbrev Glyph := Option Char

/-- The glyphs of a text. -/
def glyphs (text : String) : List Glyph := text.toList.map some

/-- The low six bits of a byte that continues a character. -/
def continuation? (b : UInt8) : Option Nat :=
  if 0x80 ≤ b ∧ b < 0xC0 then some (b.toNat - 0x80) else none

/-- The character of a code point of at least `least`. -/
def charFrom? (least code : Nat) : Option Char :=
  if least ≤ code ∧ code.isValidChar then some (Char.ofNat code) else none

/-- The character at the start of a sequence of bytes, and how many bytes it takes. -/
def firstChar? : List UInt8 → Option (Char × Nat)
  | [] => none
  | a :: rest =>
    if a < 0x80 then some (Char.ofNat a.toNat, 1)
    else if a < 0xC0 then none
    else if a < 0xE0 then
      match rest with
      | b :: _ => do
        let b ← continuation? b
        let c ← charFrom? 0x80 ((a.toNat - 0xC0) * 64 + b)
        return (c, 2)
      | _ => none
    else if a < 0xF0 then
      match rest with
      | b :: c :: _ => do
        let b ← continuation? b
        let c ← continuation? c
        let c ← charFrom? 0x800 ((a.toNat - 0xE0) * 4096 + b * 64 + c)
        return (c, 3)
      | _ => none
    else if a < 0xF8 then
      match rest with
      | b :: c :: d :: _ => do
        let b ← continuation? b
        let c ← continuation? c
        let d ← continuation? d
        let c ← charFrom? 0x10000 ((a.toNat - 0xF0) * 262144 + b * 4096 + c * 64 + d)
        return (c, 4)
      | _ => none
    else none

/-- The glyphs of a sequence of bytes, of which the first `skip` belong to a glyph before. -/
def glyphsFrom (skip : Nat) : List UInt8 → List Glyph
  | [] => []
  | b :: rest =>
    match skip with
    | skip + 1 => glyphsFrom skip rest
    | 0 =>
      match firstChar? (b :: rest) with
      | some (c, size) => some c :: glyphsFrom (size - 1) rest
      | none => none :: glyphsFrom 0 rest

/-- The glyphs of a sequence of bytes. -/
def glyphsOfBytes (bytes : List UInt8) : List Glyph := glyphsFrom 0 bytes

/-- The text of a sequence of bytes, if every byte belongs to a character. -/
def textOfBytes? (bytes : List UInt8) : Option String :=
  ((glyphsOfBytes bytes).mapM id).map String.ofList

end LintFront
