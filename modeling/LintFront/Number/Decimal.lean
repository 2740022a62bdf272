import LintFront.Number.Binary64

/-!
# Decimal numerals

* `Numeral`: a numeral as written, its digits apart from its sign and exponent.
* `Numeral.nearest`: the double nearest to the number it denotes.
* `Numeral.scaled`: the double that a reader gets which keeps the leading digits that fit into 64
  bits and then multiplies or divides by a power of ten. It is mostly the nearest one.
* `shortest`: the fewest decimal digits that read back as a given double; of two that are equally
  near, `Tie` says which.
* `Binary64.positional`, `Binary64.scientific`: two ways to write those digits.
-/

namespace LintFront

/-- The value of a run of decimal digits, given as numbers below ten. -/
def digitsValue (digits : List Nat) : Nat := digits.foldl (fun n d => 10 * n + d) 0

/-- A decimal numeral: `whole.fraction` times ten to the `exponent`. -/
structure Numeral where
  negative : Bool
  /-- The digits before the point. -/
  whole : List Nat
  /-- The digits after the point. -/
  fraction : List Nat
  /-- The written exponent, if there is one. -/
  exponent : Option Int
  /-- Whether a point is written. -/
  pointed : Bool
  deriving DecidableEq, Repr, Inhabited

namespace Numeral

/-- The digits as one natural number. -/
def digits (n : Numeral) : Nat := digitsValue (n.whole ++ n.fraction)

/-- The power of ten that the digits, as one number, are multiplied by. -/
def scale (n : Numeral) : Int := n.exponent.getD 0 - n.fraction.length

/-- Whether the numeral is written as a whole number. -/
def isWhole (n : Numeral) : Bool := !n.pointed && n.exponent.isNone

/-! ## The nearest double -/

/-- The double nearest to `digits * 10 ^ scale`. Numbers beyond every double and numbers that no
double comes near are told by their size alone. -/
def nearestTo (negative : Bool) (digits : Nat) (scale : Int) : Binary64 :=
  if digits = 0 then .zero negative
  else if 310 < scale then .infinity negative
  else if scale + (Nat.log2 digits : Int) / 3 + 1 < -330 then .zero negative
  else if 0 ≤ scale then .ofRatio negative (digits * pow10 scale.toNat) 1
  else .ofRatio negative digits (pow10 (-scale).toNat)

/-- The double nearest to the number that the numeral denotes. -/
def nearest (n : Numeral) : Binary64 := nearestTo n.negative n.digits n.scale

/-! ## Leading digits and a power of ten -/

/-- Whether `10 * kept + digit` no longer fits into 64 bits. -/
def overflows (kept digit : Nat) : Bool := pow2 64 ≤ 10 * kept + digit

/-- The digits before the point: those that fit, as a number, and how many are left out. -/
def keepWhole (kept : Nat) : List Nat → Nat × Nat
  | [] => (kept, 0)
  | d :: rest =>
    if overflows kept d then (kept, rest.length + 1) else keepWhole (10 * kept + d) rest

/-- The digits after the point: those that fit, and how many they are. -/
def keepFraction (kept taken : Nat) : List Nat → Nat × Nat
  | [] => (kept, taken)
  | d :: rest =>
    if overflows kept d then (kept, taken) else keepFraction (10 * kept + d) (taken + 1) rest

/-- The double nearest to a power of ten. -/
def powerOfTen (k : Nat) : Binary64 := .ofRatio false (pow10 k) 1

/-- A double times a power of ten, in steps of at most `10 ^ 308`; `none` beyond all doubles. -/
def scaleBy (x : Binary64) (scale : Int) : Nat → Option Binary64
  | 0 => some x
  | steps + 1 =>
    if scale.natAbs ≤ 308 then
      if 0 ≤ scale then
        let y := x.mul (powerOfTen scale.toNat)
        if y.isFinite then some y else none
      else some (x.div (powerOfTen scale.natAbs))
    else if x.isZero then some x
    else if 0 ≤ scale then none
    else scaleBy (x.div (powerOfTen 308)) (scale + 308) steps

/-- The double of the leading digits that fit into 64 bits, times a power of ten; `none` for a
number too large. An exponent that does not fit into 32 bits decides alone. -/
def scaled (n : Numeral) : Option Binary64 :=
  let (kept, left) := keepWhole 0 n.whole
  let (kept, taken) := keepFraction kept 0 n.fraction
  let written := n.exponent.getD 0
  let size :=
    if pow2 31 ≤ written.natAbs then
      if kept = 0 || written < 0 then some (.zero false) else none
    else scaleBy (.ofNat kept) (written + left - taken) 5
  size.map fun x => if n.negative then x.neg else x

end Numeral

/-! ## Shortest digits -/

/-- Which one of two equally near numbers is taken. -/
inductive Tie
  /-- The one whose last digit is even. -/
  | even
  /-- The greater one. -/
  | up
  deriving DecidableEq, Repr, Inhabited

/-- Whether the smaller one of two equally near numbers is taken. -/
def Tie.takesLower (tie : Tie) (lower : Nat) : Bool :=
  match tie with
  | .even => lower % 2 = 0
  | .up => false

/-- Decimal digits of a positive number: `0.digits * 10 ^ point`. -/
structure Digits where
  digits : List Nat
  point : Int
  deriving DecidableEq, Repr, Inhabited

/-- The interval of the numbers that read as a given positive double, over a common denominator:
lower end, value, upper end, denominator. Its ends read as the double iff the significand is
even. -/
def readingInterval (x : Binary64) : Nat × Nat × Nat × Nat :=
  let m := x.significand
  let below := if m = pow2 52 && 1 < x.exponentField then 1 else 2
  let (low, mid, high) := (4 * m - below, 4 * m, 4 * m + 2)
  let e := x.exponent - 2
  if 0 ≤ e then (low * pow2 e.toNat, mid * pow2 e.toNat, high * pow2 e.toNat, 1)
  else (low, mid, high, pow2 (-e).toNat)

/-- The least `k` with `num / den < 10 ^ k`, searched upward from `start`. -/
def decimalPoint (num den : Nat) (start : Int) : Nat → Int
  | 0 => start
  | steps + 1 =>
    let fits :=
      if 0 ≤ start then num < den * pow10 start.toNat else num * pow10 (-start).toNat < den
    if fits then start else decimalPoint num den (start + 1) steps

/-- The candidate with `count` digits, if one of the two neighbours of the value on that grid
reads back: the nearer one if both do. -/
def digitsAt (tie : Tie) (x : Binary64) (point : Int) (count : Nat) : Option Nat :=
  let (low, mid, high, den) := readingInterval x
  let unit : Int := point - count
  -- The grid has the unit `10 ^ unit`; everything is multiplied out.
  let (low, mid, high, den) :=
    if 0 ≤ unit then (low, mid, high, den * pow10 unit.toNat)
    else
      let k := pow10 (-unit).toNat
      (low * k, mid * k, high * k, den)
  let even := x.significand % 2 = 0
  let reads (n : Nat) : Bool :=
    if even then low ≤ n * den && n * den ≤ high else low < n * den && n * den < high
  let under := mid / den
  let next := under + 1
  match reads under, reads next with
  | true, true =>
    let down := mid - under * den
    let up := next * den - mid
    some (if down < up || (down = up && tie.takesLower under) then under else next)
  | true, false => some under
  | false, true => some next
  | false, false => none

/-- The digits of a number, most significant first. -/
def decimalDigits (n : Nat) : List Nat := (Nat.toDigits 10 n).map fun c => c.toNat - '0'.toNat

/-- A list of digits without the zeros at its end. -/
def dropTrailingZeros (ds : List Nat) : List Nat := (ds.reverse.dropWhile (· = 0)).reverse

/-- The fewest digits that read back as the positive double `x`, the nearest of those. -/
def shortest (tie : Tie) (x : Binary64) : Digits :=
  let (_, mid, _, den) := readingInterval x
  let point := decimalPoint mid den (-330) 700
  let found := (List.range 17).findSome? fun i =>
    (digitsAt tie x point (i + 1)).map fun n => (n, i + 1)
  match found with
  | some (n, count) =>
    let ds := decimalDigits n
    ⟨dropTrailingZeros ds, point + (ds.length - count : Int)⟩
  | none => ⟨[0], 1⟩

/-! ## Written forms -/

/-- Digits as characters. -/
def digitChars (ds : List Nat) : List Char := ds.map fun d => Char.ofNat ('0'.toNat + d)

/-- Digits without an exponent, with a point only where one is needed. -/
def Digits.positional (d : Digits) : List Char :=
  if d.point ≤ 0 then
    ['0', '.'] ++ List.replicate (-d.point).toNat '0' ++ digitChars d.digits
  else
    let k := d.point.toNat
    if d.digits.length ≤ k then
      digitChars d.digits ++ List.replicate (k - d.digits.length) '0'
    else digitChars (d.digits.take k) ++ ['.'] ++ digitChars (d.digits.drop k)

/-- A power of ten, with its sign. -/
def exponentChars (power : Int) : List Char :=
  (if 0 ≤ power then ['e', '+'] else ['e', '-']) ++ Nat.toDigits 10 power.natAbs

/-- Digits with one place before the point and an exponent. -/
def Digits.withExponent (d : Digits) : List Char :=
  match digitChars d.digits with
  | [] => ['0']
  | [c] => c :: exponentChars (d.point - 1)
  | c :: rest => c :: '.' :: rest ++ exponentChars (d.point - 1)

namespace Binary64

/-- The sign of a double, written. -/
def signChars (x : Binary64) : List Char := if x.isNegative then ['-'] else []

/-- The text of an infinity or a not-a-number. -/
def nonFinite (x : Binary64) : List Char :=
  if x.isInfinite then x.signChars ++ ['i', 'n', 'f'] else ['N', 'a', 'N']

/-- The shortest digits without an exponent, the greater ones of two equally near; a whole number
ends in a point and a zero. -/
def positional (x : Binary64) : String :=
  if !x.isFinite then String.ofList x.nonFinite
  else
    let body := if x.isZero then ['0'] else (shortest .up x).positional
    let body := if body.contains '.' then body else body ++ ['.', '0']
    String.ofList (x.signChars ++ body)

/-- The shortest digits, the even ones of two equally near, without an exponent from `1e-5` up to
`1e16` and with one beyond. -/
def scientific (x : Binary64) : String :=
  if !x.isFinite then String.ofList x.nonFinite
  else if x.isZero then String.ofList (x.signChars ++ ['0', '.', '0'])
  else
    let d := shortest .even x
    let body :=
      if -5 < d.point && d.point ≤ 16 then
        let plain := d.positional
        if plain.contains '.' then plain else plain ++ ['.', '0']
      else d.withExponent
    String.ofList (x.signChars ++ body)

end Binary64

end LintFront
