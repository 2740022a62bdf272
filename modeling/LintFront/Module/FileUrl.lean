import LintFront.Files.Path
import LintFront.Text.Hex

/-!
# File URLs

* `percentEncoded`: a character as it stands in the path of a URL.
* `fileUrl?`: the URL of an absolute path.
-/

namespace LintFront

/-- Characters that stand for something else in a URL, or have no place in it. -/
def reserved : List Char :=
  [' ', '"', '#', '%', '<', '>', '?', '\\', '\x60', '\x7b', '\x7d', '\x7f']

/-- Whether a character of a path is written by its bytes: controls, reserved characters and
everything beyond the first 128. -/
def isEncoded (c : Char) : Bool := c.toNat < 0x20 || 0x7f ≤ c.toNat || reserved.contains c

/-- A byte after a percent sign. -/
def percentByte (b : UInt8) : List Char := '%' :: hexByte b.toNat

/-- A character as it stands in the path of a URL. -/
def percentEncoded (c : Char) : List Char :=
  if isEncoded c then (String.utf8EncodeChar c).flatMap percentByte else [c]

/-- A name on a path, with the slash before it. -/
def encodedName (name : String) : List Char := '/' :: name.toList.flatMap percentEncoded

/-- The URL of an absolute path; a relative one has none. Repeated slashes and single dots are
left out. -/
def fileUrl? (path : String) : Option String :=
  if isAbsolute path then
    let encoded := ((segmentsOf path).filter (!isIdle ·)).flatMap encodedName
    some (String.ofList ("file://".toList ++ if encoded.isEmpty then ['/'] else encoded))
  else none

end LintFront
