import LintFront.Document.Tree
import LintFront.Text.Glyph

/-!
# The strict notation

The notation in which programs exchange values. Reading never fails as such: a fault in the text
is kept in the tree at the place where it shows, and what follows it is not looked at.

* `Strict.read`: the tree of a text, and the fault of what follows the value.
* `Strict.value`: the value of a text.
* `Strict.typed`: a text fitted to a type.
* `deepest`: how many lists and objects may be nested.
-/

namespace LintFront.Strict

/-- How many lists and objects may be open at once. -/
def deepest : Nat := 127

/-- The fault of a text that breaks the grammar. -/
def fault : ReadFault := .grammar .strict

/-- What is left of the text after a part; `none` after a fault. -/
abbrev Rest := Option (List Glyph)

/-- Whether a character parts tokens. -/
def isBlank (c : Char) : Bool := c = ' ' || c = '\n' || c = '\t' || c = '\r'

/-- The text without the blanks it starts with. -/
def skipBlanks : List Glyph → List Glyph
  | some c :: rest => if isBlank c then skipBlanks rest else some c :: rest
  | cs => cs

/-! ## Texts -/

/-- The number of four hexadecimal digits. -/
def hexCode? (a b c d : Char) : Option Nat := hexNumber? [a, b, c, d]

/-- The character that a one-letter escape stands for. -/
def escaped? : Char → Option Char
  | '"' => some '"'
  | '\\' => some '\\'
  | '/' => some '/'
  | 'b' => some '\x08'
  | 'f' => some '\x0c'
  | 'n' => some '\n'
  | 'r' => some '\r'
  | 't' => some '\t'
  | _ => none

/-- The part of a text between quotes: a glyph, or the code of an escape. -/
inductive Piece
  | glyph (g : Glyph)
  | code (n : Nat)
  deriving DecidableEq, Repr

/-- The pieces up to the closing quote, last first, and the text after it; `none` if the quoted
text does not end well. -/
def pieces (done : List Piece) : List Glyph → Option (List Piece × List Glyph)
  | [] => none
  | some '"' :: rest => some (done, rest)
  | some '\\' :: some 'u' :: some a :: some b :: some c :: some d :: rest =>
    match hexCode? a b c d with
    | some code => pieces (.code code :: done) rest
    | none => none
  | some '\\' :: some c :: rest =>
    match escaped? c with
    | some c => pieces (.glyph (some c) :: done) rest
    | none => none
  | some '\\' :: _ => none
  | some c :: rest => if c.toNat < 0x20 then none else pieces (.glyph (some c) :: done) rest
  | none :: rest => pieces (.glyph none :: done) rest

/-- The characters that pieces denote. A leading surrogate must be followed by a trailing one. -/
def denote (done : List Char) : List Piece → Read (List Char)
  | [] => .ok done.reverse
  | .glyph (some c) :: rest => denote (c :: done) rest
  | .glyph none :: _ => .error fault
  | .code high :: rest =>
    if 0xD800 ≤ high ∧ high < 0xDC00 then
      match rest with
      | .code low :: rest =>
        if 0xDC00 ≤ low ∧ low < 0xE000 then
          denote (Char.ofNat ((high - 0xD800) * 0x400 + (low - 0xDC00) + 0x10000) :: done) rest
        else .error fault
      | _ => .error fault
    else if high.isValidChar then denote (Char.ofNat high :: done) rest
    else .error fault

/-- A quoted text, from after its opening quote. -/
def quotedText (cs : List Glyph) : Option (Read String × List Glyph) :=
  (pieces [] cs).map fun (done, rest) =>
    ((denote [] done.reverse).map String.ofList, rest)

/-! ## Numbers -/

/-- The decimal digits at the start of a text, first one first. -/
def takeDigits : List Glyph → List Nat × List Glyph
  | some c :: rest =>
    if c.isDigit then
      let (ds, left) := takeDigits rest
      ((c.toNat - '0'.toNat) :: ds, left)
    else ([], some c :: rest)
  | cs => ([], cs)

/-- The exponent at the start of a text: none, one, or a broken one. -/
def takeExponent : List Glyph → Option (Option Int × List Glyph)
  | some c :: rest =>
    if c = 'e' || c = 'E' then
      let (negative, rest) : Bool × List Glyph :=
        match rest with
        | some '-' :: rest => (true, rest)
        | some '+' :: rest => (false, rest)
        | rest => (false, rest)
      match takeDigits rest with
      | ([], _) => none
      | (ds, rest) =>
        let n : Int := digitsValue ds
        some (some (if negative then -n else n), rest)
    else some (none, some c :: rest)
  | cs => some (none, cs)

/-- The numeral at the start of a text, from after its sign. -/
def takeNumeral (negative : Bool) (cs : List Glyph) : Option (Numeral × List Glyph) := do
  let (whole, rest) := takeDigits cs
  if whole.isEmpty || (whole.head? = some 0 && 1 < whole.length) then none
  let (fraction, rest, pointed) ← (
    match rest with
    | some '.' :: rest =>
      match takeDigits rest with
      | ([], _) => none
      | (ds, rest) => some (ds, rest, true)
    | rest => some ([], rest, false) : Option (List Nat × List Glyph × Bool))
  let (exponent, rest) ← takeExponent rest
  return (⟨negative, whole, fraction, exponent, pointed⟩, rest)

/-- The number of a numeral: whole numbers that fit into 64 bits are kept, a negative zero and
everything else is a double. -/
def number (n : Numeral) : Read Number :=
  let magnitude := n.digits
  if n.isWhole && !n.negative && magnitude < pow2 64 then .ok (.integer magnitude)
  else if n.isWhole && n.negative && 0 < magnitude && magnitude ≤ pow2 63 then
    .ok (.integer (-(magnitude : Int)))
  else
    match n.scaled with
    | some x => .ok (.double x)
    | none => .error fault

/-! ## Documents -/

/-- The text after the given characters. -/
def expect? : List Char → List Glyph → Option (List Glyph)
  | [], cs => some cs
  | c :: word, some d :: rest => if c = d then expect? word rest else none
  | _ :: _, _ => none

/-- A tree that is broken here. -/
def failed : Tree × Rest := (.broken fault, none)

/-- A word that stands for a value. -/
def word (spelling : List Char) (t : Tree) (cs : List Glyph) : Tree × Rest :=
  match expect? spelling cs with
  | some rest => (t, some rest)
  | none => failed

/-- A list or an object, marked where it is nested too deep. -/
def nested (depth : Nat) (t : Tree) : Tree := if depth < deepest then t else .deep t

mutual

/-- The tree at the start of a text, inside `depth` lists and objects. -/
def value (depth fuel : Nat) (cs : List Glyph) : Tree × Rest :=
  match fuel with
  | 0 => failed
  | fuel + 1 =>
    match skipBlanks cs with
    | some 'n' :: rest => word ['u', 'l', 'l'] .null rest
    | some 't' :: rest => word ['r', 'u', 'e'] (.bool true) rest
    | some 'f' :: rest => word ['a', 'l', 's', 'e'] (.bool false) rest
    | some '"' :: rest =>
      match quotedText rest with
      | some (s, rest) => (.text s, some rest)
      | none => failed
    | some '[' :: rest =>
      let (items, stop, left) := listItems (depth + 1) true fuel rest
      (nested depth (.list items stop), left)
    | some '\x7b' :: rest =>
      let (members, stop, left) := objectMembers (depth + 1) true fuel rest
      (nested depth (.object members stop), left)
    | some '-' :: rest =>
      match takeNumeral true rest with
      | some (n, rest) => (.number (number n), some rest)
      | none => failed
    | cs =>
      match takeNumeral false cs with
      | some (n, rest) => (.number (number n), some rest)
      | none => failed
termination_by structural fuel

/-- The items of a list up to its end, the fault at which it breaks off, and the text after it.
`first` tells that no item has come yet. -/
def listItems (depth : Nat) (first : Bool) (fuel : Nat) (cs : List Glyph) :
    List Tree × Option ReadFault × Rest :=
  match fuel with
  | 0 => ([], some fault, none)
  | fuel + 1 =>
    match skipBlanks cs, first with
    | some ']' :: rest, _ => ([], none, some rest)
    | some ',' :: rest, false =>
      match skipBlanks rest with
      | some ']' :: _ => ([], some fault, none)
      | rest => listItem depth fuel rest
    | _, false => ([], some fault, none)
    | rest, true => listItem depth fuel rest
termination_by structural fuel

/-- One item of a list and those after it. -/
def listItem (depth fuel : Nat) (cs : List Glyph) : List Tree × Option ReadFault × Rest :=
  match fuel with
  | 0 => ([], some fault, none)
  | fuel + 1 =>
    match value depth fuel cs with
    | (t, none) => ([t], some fault, none)
    | (t, some rest) =>
      let (items, stop, left) := listItems depth false fuel rest
      (t :: items, stop, left)
termination_by structural fuel

/-- The members of an object up to its end, the fault at which it breaks off, and the text after
it. -/
def objectMembers (depth : Nat) (first : Bool) (fuel : Nat) (cs : List Glyph) :
    List (Read String × Tree) × Option ReadFault × Rest :=
  match fuel with
  | 0 => ([], some fault, none)
  | fuel + 1 =>
    match skipBlanks cs, first with
    | some '\x7d' :: rest, _ => ([], none, some rest)
    | some ',' :: rest, false => objectMember depth fuel (skipBlanks rest)
    | _, false => ([], some fault, none)
    | rest, true => objectMember depth fuel rest
termination_by structural fuel

/-- One member of an object and those after it. -/
def objectMember (depth fuel : Nat) (cs : List Glyph) :
    List (Read String × Tree) × Option ReadFault × Rest :=
  match fuel with
  | 0 => ([], some fault, none)
  | fuel + 1 =>
    match cs with
    | some '"' :: rest =>
      match quotedText rest with
      | none => ([], some fault, none)
      | some (name, rest) =>
        match skipBlanks rest with
        | some ':' :: rest =>
          match value depth fuel rest with
          | (t, none) => ([(name, t)], some fault, none)
          | (t, some rest) =>
            let (members, stop, left) := objectMembers depth false fuel rest
            ((name, t) :: members, stop, left)
        | _ => ([(name, .broken fault)], some fault, none)
    | _ => ([], some fault, none)
termination_by structural fuel

end

/-- The tree of a text, and the fault of what follows the value. -/
def read (cs : List Glyph) : Tree × Option ReadFault :=
  match value 0 (3 * cs.length + 3) cs with
  | (t, none) => (t, some fault)
  | (t, some rest) => (t, if (skipBlanks rest).isEmpty then none else some fault)

/-- A text fitted to a type. -/
def typed {α : Type} (reader : Dialect → Tree → Read α) (cs : List Glyph) : Read α := do
  let (t, stop) := read cs
  let result ← reader .strict t
  Read.unless stop
  return result

/-- The value of a text. -/
def readValue (cs : List Glyph) : Read Value := typed (fun _ t => t.toValue) cs

end LintFront.Strict
