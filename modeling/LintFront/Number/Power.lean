/-!
# Powers of two and of ten

Doubles count in powers of two, and numerals in powers of ten.
-/

namespace LintFront

/-- A power of two. -/
def pow2 (n : Nat) : Nat := Nat.pow 2 n

/-- A power of ten. -/
def pow10 (n : Nat) : Nat := Nat.pow 10 n

end LintFront
