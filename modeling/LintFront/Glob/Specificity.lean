import LintFront.Glob.Basic
import LintFront.Text.Segments

/-!
# How specific a pattern is

The more parts a pattern fixes from the top of a path on, the more specific it is. A special
character that stands alone in a class is as good as any other character.

* `specificityOf`, `specificity`: the number of leading parts without a wildcard.
-/

namespace LintFront

/-- A text without the classes that hold just the character `x`, taken away from the left. -/
def dropClass (x : Char) : List Char → List Char
  | '[' :: c :: ']' :: rest =>
    if c = x then dropClass x rest else '[' :: dropClass x (c :: ']' :: rest)
  | c :: rest => c :: dropClass x rest
  | [] => []

/-- A part without the classes of one special character. -/
def dropEscapes (part : List Char) : List Char :=
  ['*', '?', '[', ']'].foldl (fun part x => dropClass x part) part

/-- Whether a part of a pattern has no wildcard. -/
def isLiteralPart (part : List Char) : Bool :=
  !(dropEscapes part).any fun c => c = '*' || c = '?' || c = '[' || c = '\x7b'

/-- The number of leading parts of a pattern without a wildcard. -/
def specificityOf (pattern : List Char) : Nat :=
  ((segments '/' pattern).takeWhile isLiteralPart).length

/-- The number of leading parts of a pattern without a wildcard. -/
def specificity (pattern : String) : Nat := specificityOf pattern.toList

end LintFront
