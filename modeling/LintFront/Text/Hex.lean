/-!
# Hexadecimal digits

* `hexDigit?`: the value of one digit, of either case.
* `hexNumber?`: the value of a non-empty run of digits, and of nothing else.
* `hexText`: a number in lower-case digits, without leading zeros.
-/

namespace LintFront

/-- The value of a hexadecimal digit of either case. -/
def hexDigit? (c : Char) : Option Nat :=
  if '0' ≤ c ∧ c ≤ '9' then some (c.toNat - '0'.toNat)
  else if 'a' ≤ c ∧ c ≤ 'f' then some (c.toNat - 'a'.toNat + 10)
  else if 'A' ≤ c ∧ c ≤ 'F' then some (c.toNat - 'A'.toNat + 10)
  else none

/-- Whether a character is a hexadecimal digit. -/
def isHexDigit (c : Char) : Bool := (hexDigit? c).isSome

/-- The value of a run of digits read on from `acc`, or `none` at the first other character. -/
def hexValue? (acc : Nat) : List Char → Option Nat
  | [] => some acc
  | c :: rest => (hexDigit? c).bind fun d => hexValue? (16 * acc + d) rest

/-- The value of a non-empty run of hexadecimal digits. -/
def hexNumber? : List Char → Option Nat
  | [] => none
  | cs => hexValue? 0 cs

/-- A number in lower-case hexadecimal digits. -/
def hexText (n : Nat) : String := String.ofList (Nat.toDigits 16 n)

/-- A number in upper-case hexadecimal, two digits at least. -/
def hexByte (n : Nat) : List Char :=
  let digit (d : Nat) : Char :=
    if d < 10 then Char.ofNat ('0'.toNat + d) else Char.ofNat ('A'.toNat + d - 10)
  [digit (n / 16), digit (n % 16)]

/-- A number in lower-case hexadecimal, padded on the left with zeros to `width` digits. -/
def hexPadded (width n : Nat) : List Char :=
  let digits := Nat.toDigits 16 n
  List.replicate (width - digits.length) '0' ++ digits

end LintFront
