import LintFront.Number.Power

/-!
# Binary floating point of 64 bits

A double is kept by its bits. Its value is computed with in exact rational arithmetic, and every
operation rounds the exact result once, to the nearest double and of two equally near ones to the
one with the even significand.

* `Binary64.ofRatio`: the double nearest to a quotient of natural numbers.
* `Binary64.mul`, `Binary64.div`: product and quotient of finite doubles, rounded once.
* `Binary64.significand`, `Binary64.exponent`: a finite double is `significand * 2 ^ exponent`.
-/

namespace LintFront

/-- A double, by its bits. -/
structure Binary64 where
  bits : UInt64
  deriving DecidableEq, Repr, Inhabited

namespace Binary64

/-! ## Taking a double apart -/

/-- The bits as a number. -/
def code (x : Binary64) : Nat := x.bits.toNat

/-- Whether the sign bit is set. -/
def isNegative (x : Binary64) : Bool := pow2 63 ≤ x.code

/-- The exponent field, from 0 to 2047. -/
def exponentField (x : Binary64) : Nat := x.code / pow2 52 % pow2 11

/-- The fraction field. -/
def fraction (x : Binary64) : Nat := x.code % pow2 52

/-- Whether the double is neither an infinity nor a not-a-number. -/
def isFinite (x : Binary64) : Bool := x.exponentField < 2047

/-- Whether the double is one of the two infinities. -/
def isInfinite (x : Binary64) : Bool := x.exponentField = 2047 && x.fraction = 0

/-- The integer that a finite double multiplies a power of two by. -/
def significand (x : Binary64) : Nat :=
  if x.exponentField = 0 then x.fraction else x.fraction + pow2 52

/-- The power of two of a finite double. -/
def exponent (x : Binary64) : Int :=
  if x.exponentField = 0 then -1074 else (x.exponentField : Int) - 1075

/-- Whether the double is one of the two zeros. -/
def isZero (x : Binary64) : Bool := x.code % pow2 63 = 0

/-! ## Making a double -/

/-- The double of the given sign whose other bits are `magnitude`. -/
def ofMagnitude (negative : Bool) (magnitude : Nat) : Binary64 :=
  ⟨UInt64.ofNat (if negative then pow2 63 + magnitude else magnitude)⟩

/-- The bits of an infinity below the sign. -/
def infinityMagnitude : Nat := 2047 * pow2 52

def infinity (negative : Bool) : Binary64 := ofMagnitude negative infinityMagnitude

def zero (negative : Bool) : Binary64 := ofMagnitude negative 0

/-- The quiet not-a-number without a payload. -/
def nan : Binary64 := ofMagnitude false (infinityMagnitude + pow2 51)

/-- The whole number nearest to `num / den`, the even one of two equally near. -/
def roundDiv (num den : Nat) : Nat :=
  let whole := num / den
  let rest := num % den
  if den < 2 * rest || (2 * rest = den && whole % 2 = 1) then whole + 1 else whole

/-- `num / den` in units of `2 ^ e`, as a quotient of natural numbers. -/
def inUnits (num den : Nat) (e : Int) : Nat × Nat :=
  if 0 ≤ e then (num, den * pow2 e.toNat) else (num * pow2 (-e).toNat, den)

/-- The power of two whose multiples are the doubles around `num / den`. -/
def unitOf (num den : Nat) : Int :=
  let guess : Int := (Nat.log2 num : Int) - Nat.log2 den - 52
  let (n, d) := inUnits num den guess
  let e := if n / d < pow2 52 then guess - 1 else guess
  max e (-1074)

/-- The double nearest to `num / den`, for a positive `den`. -/
def ofRatio (negative : Bool) (num den : Nat) : Binary64 :=
  if num = 0 then zero negative
  else
    let e := unitOf num den
    let (n, d) := inUnits num den e
    let units := roundDiv n d
    let magnitude :=
      if units < pow2 52 then units
      else (e + 1075).toNat * pow2 52 + (units - pow2 52)
    ofMagnitude negative (min magnitude infinityMagnitude)

/-- The double nearest to a natural number. -/
def ofNat (n : Nat) : Binary64 := ofRatio false n 1

/-! ## Arithmetic on finite doubles -/

/-- The size of a finite double as a quotient of natural numbers. -/
def ratio (x : Binary64) : Nat × Nat :=
  if 0 ≤ x.exponent then (x.significand * pow2 x.exponent.toNat, 1)
  else (x.significand, pow2 (-x.exponent).toNat)

/-- The product of two finite doubles, rounded once. -/
def mul (x y : Binary64) : Binary64 :=
  let (a, b) := x.ratio
  let (c, d) := y.ratio
  ofRatio (x.isNegative != y.isNegative) (a * c) (b * d)

/-- The quotient of two finite doubles, the second not zero, rounded once. -/
def div (x y : Binary64) : Binary64 :=
  let (a, b) := x.ratio
  let (c, d) := y.ratio
  ofRatio (x.isNegative != y.isNegative) (a * d) (b * c)

/-- The same size with the other sign. -/
def neg (x : Binary64) : Binary64 := ofMagnitude (!x.isNegative) (x.code % pow2 63)

end Binary64

end LintFront
