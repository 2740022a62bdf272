import LintFront.Text.Hex

/-!
# Sets of characters as ranges of code points

A large class of characters is kept as the list of its ranges. The list is written as text, each
range in hexadecimal and ranges parted by blanks, as in "30-39 5F".

* `Ranges.ofLines`: the set that such a text describes, given by its lines.
* `Ranges.has`: membership.
-/

namespace LintFront

/-- A set of characters, as closed ranges of code points. -/
structure Ranges where
  spans : List (Nat × Nat)

namespace Ranges

/-- One range: its first and last code point, or a single code point. -/
def span? (text : String) : Option (Nat × Nat) :=
  match text.splitOn "-" with
  | [first] => (hexNumber? first.toList).map fun n => (n, n)
  | [first, last] => do
    let low ← hexNumber? first.toList
    let high ← hexNumber? last.toList
    return (low, high)
  | _ => none

/-- The set written as lines of ranges parted by blanks. -/
def ofLines (lines : List String) : Ranges :=
  ⟨lines.flatMap fun line => (line.splitOn " ").filterMap span?⟩

/-- Whether the set has the character. -/
def has (set : Ranges) (c : Char) : Bool :=
  set.spans.any fun (low, high) => low ≤ c.toNat && c.toNat ≤ high

end Ranges

end LintFront
