import LintFront.Document.Tree
import LintFront.Text.Identifier

/-!
# The relaxed notation

The notation of configuration files: comments, trailing commas, names without quotes, texts in
single quotes, hexadecimal numbers. A text that breaks the grammar anywhere has no tree at all;
only then are the tokens looked at for what they denote, and a token that denotes nothing is a
fault in its place.

* `Relaxed.read`: the tree of a text.
* `Relaxed.typed`: a text fitted to a type.
-/

namespace LintFront.Relaxed

/-! ## Blanks and comments -/

/-- Whether a character ends a line. -/
def endsLine (c : Char) : Bool :=
  c = '\n' || c = '\r' || c = '\u2028' || c = '\u2029'

/-- Whether a character parts tokens. -/
def isBlank (c : Char) : Bool :=
  c = '\t' || c = '\x0b' || c = '\x0c' || c = ' ' || c = '\u00a0' || c = '\ufeff' ||
  c = '\u1680' || ('\u2000' ≤ c && c ≤ '\u200a') || c = '\u202f' || c = '\u205f' ||
  c = '\u3000' || endsLine c

/-- Where a reader stands between two tokens. -/
inductive Gap
  | blank
  | lineComment
  | blockComment
  deriving DecidableEq, Repr

/-- The text after blanks and comments; `none` if a comment does not end. -/
def skipGap : Gap → List Char → Option (List Char)
  | .blank, '/' :: '/' :: rest => skipGap .lineComment rest
  | .blank, '/' :: '*' :: rest => skipGap .blockComment rest
  | .blank, c :: rest => if isBlank c then skipGap .blank rest else some (c :: rest)
  | .blank, [] => some []
  | .lineComment, c :: rest => skipGap (if endsLine c then .blank else .lineComment) rest
  | .lineComment, [] => some []
  | .blockComment, '*' :: '/' :: rest => skipGap .blank rest
  | .blockComment, _ :: rest => skipGap .blockComment rest
  | .blockComment, [] => none

/-- The text from its first token on. -/
def nextToken (cs : List Char) : Option (List Char) := skipGap .blank cs

/-! ## Texts and names -/

/-- A part of a text or a name. -/
inductive Piece
  /-- A character that stands for itself. -/
  | plain (c : Char)
  /-- The character after a backslash. -/
  | escape (c : Char)
  /-- A backslash and a zero. -/
  | zero
  /-- The digits of a character code. -/
  | code (digits : List Char)
  deriving DecidableEq, Repr

/-- How a piece is spelled, without the backslash and the letter that announce it. -/
def Piece.spelling : Piece → List Char
  | .plain c => [c]
  | .escape c => [c]
  | .zero => ['0']
  | .code digits => digits

/-- The character that stands for the one after a backslash. -/
def escaped : Char → Char
  | 'b' => '\x08'
  | 'f' => '\x0c'
  | 'n' => '\n'
  | 'r' => '\r'
  | 't' => '\t'
  | 'v' => '\x0b'
  | c => c

/-- Whether a character after a backslash stands for one character of its own. -/
def isEscape (c : Char) : Bool := !c.isDigit && c != 'x' && c != 'u' && !endsLine c

/-- The pieces up to the closing quote, last first, and the text after it. -/
def pieces (quote : Char) (done : List Piece) : List Char → Option (List Piece × List Char)
  | [] => none
  | '\\' :: '\r' :: '\n' :: rest => pieces quote done rest
  | '\\' :: 'x' :: a :: b :: rest =>
    if isHexDigit a && isHexDigit b then pieces quote (.code [a, b] :: done) rest else none
  | '\\' :: 'u' :: a :: b :: c :: d :: rest =>
    if isHexDigit a && isHexDigit b && isHexDigit c && isHexDigit d then
      pieces quote (.code [a, b, c, d] :: done) rest
    else none
  | '\\' :: c :: rest =>
    if endsLine c then pieces quote done rest
    else if c = '0' then pieces quote (.zero :: done) rest
    else if isEscape c then pieces quote (.escape c :: done) rest
    else none
  | ['\\'] => none
  | c :: rest =>
    if c = quote then some (done, rest)
    else if endsLine c then none
    else pieces quote (.plain c :: done) rest

/-- The pieces of a name without quotes, last first, and the text after it. `first` tells that no
piece has come yet. -/
def namePieces (first : Bool) (done : List Piece) : List Char → List Piece × List Char
  | '\\' :: 'u' :: a :: b :: c :: d :: rest =>
    if isHexDigit a && isHexDigit b && isHexDigit c && isHexDigit d then
      namePieces false (.code [a, b, c, d] :: done) rest
    else (done, '\\' :: 'u' :: a :: b :: c :: d :: rest)
  | c :: rest =>
    if (if first then startsIdentifier c else continuesIdentifier c) then
      namePieces false (.plain c :: done) rest
    else (done, c :: rest)
  | [] => (done, [])

/-- Whether a code is the first of a pair. -/
def isLead (n : Nat) : Bool := 0xD800 ≤ n && n < 0xDC00

/-- Whether a code is the second of a pair. -/
def isTrail (n : Nat) : Bool := 0xDC00 ≤ n && n < 0xE000

/-- The code that a pair of surrogates is read as: the ten bits of the first and those of the
second with the seventeenth bit set, one laid over the other. -/
def joinPair (lead trail : Nat) : Nat :=
  ((lead - 0xD800) * 0x400) ||| ((trail - 0xDC00) + 0x10000)

/-- The characters that pieces denote. -/
def denote (done : List Char) : List Piece → Read (List Char)
  | [] => .ok done.reverse
  | .plain c :: rest => denote (c :: done) rest
  | .escape c :: rest => denote (escaped c :: done) rest
  | .zero :: rest => denote ('\x00' :: done) rest
  | .code digits :: rest =>
    let code := (hexNumber? digits).getD 0
    if isTrail code then .error (.literal .unexpectedTrail)
    else if isLead code then
      match rest with
      | [] => .error (.literal .missingTrail)
      | next :: rest =>
        match hexNumber? next.spelling with
        | none => .error (.literal .hexadecimal)
        | some trail =>
          if isTrail trail then denote (Char.ofNat (joinPair code trail) :: done) rest
          else .error (.literal .expectedTrail)
    else denote (Char.ofNat code :: done) rest

/-- The text that pieces denote, given last first. -/
def denoteText (done : List Piece) : Read String := (denote [] done.reverse).map String.ofList

/-! ## Numbers -/

/-- A number as it is written. -/
inductive Literal
  | hexadecimal (digits : List Char)
  | decimal (n : Numeral)
  | infinity
  | nan
  deriving DecidableEq, Repr

/-- A sign as it is written. -/
inductive Sign
  | none
  | plus
  | minus
  deriving DecidableEq, Repr

/-- The decimal digits at the start of a text. -/
def takeDigits (cs : List Char) : List Nat × List Char :=
  ((cs.takeWhile Char.isDigit).map fun c => c.toNat - '0'.toNat, cs.dropWhile Char.isDigit)

/-- The digits before the point: a lone zero, or digits that start with another one. -/
def takeWhole : List Char → Option (List Nat × List Char)
  | '0' :: rest => some ([0], rest)
  | cs =>
    match takeDigits cs with
    | ([], _) => none
    | found => some found

/-- The exponent at the start of a text, if there is a whole one. -/
def takeExponent (cs : List Char) : Option Int × List Char :=
  let take (negative : Bool) (digits : List Char) : Option Int × List Char :=
    match takeDigits digits with
    | ([], _) => (none, cs)
    | (ds, rest) =>
      let n : Int := digitsValue ds
      (some (if negative then -n else n), rest)
  match cs with
  | c :: rest =>
    if c = 'e' || c = 'E' then
      match rest with
      | '-' :: rest => take true rest
      | '+' :: rest => take false rest
      | rest => take false rest
    else (none, cs)
  | [] => (none, cs)

/-- The decimal numeral at the start of a text. -/
def takeDecimal (negative : Bool) (cs : List Char) : Option (Numeral × List Char) :=
  match takeWhole cs with
  | some (whole, '.' :: rest) =>
    let (fraction, rest) := takeDigits rest
    let (exponent, rest) := takeExponent rest
    some (⟨negative, whole, fraction, exponent, true⟩, rest)
  | some (whole, rest) =>
    let (exponent, rest) := takeExponent rest
    some (⟨negative, whole, [], exponent, false⟩, rest)
  | none =>
    match cs with
    | '.' :: rest =>
      match takeDigits rest with
      | ([], _) => none
      | (fraction, rest) =>
        let (exponent, rest) := takeExponent rest
        some (⟨negative, [], fraction, exponent, true⟩, rest)
    | _ => none

/-- The hexadecimal digits at the start of a text, after their mark. -/
def takeHexadecimal : List Char → Option (List Char × List Char)
  | '0' :: x :: rest =>
    if x = 'x' || x = 'X' then
      match rest.takeWhile isHexDigit with
      | [] => none
      | digits => some (digits, rest.dropWhile isHexDigit)
    else none
  | _ => none

/-- The number at the start of a text, after its sign. -/
def takeLiteral (sign : Sign) (cs : List Char) : Option (Literal × List Char) :=
  match takeHexadecimal cs with
  | some (digits, rest) => some (.hexadecimal digits, rest)
  | none =>
    match cs with
    | 'I' :: 'n' :: 'f' :: 'i' :: 'n' :: 'i' :: 't' :: 'y' :: rest => some (.infinity, rest)
    | 'N' :: 'a' :: 'N' :: rest => some (.nan, rest)
    | cs => (takeDecimal (sign = .minus) cs).map fun (n, rest) => (.decimal n, rest)

/-- The number that a literal denotes. Hexadecimal digits have 32 bits and take no sign, decimal
ones without point and exponent have 64, and a plus sign goes with decimal digits only. -/
def denoteNumber (sign : Sign) : Literal → Read Number
  | .hexadecimal digits =>
    if sign = .none then
      match hexNumber? digits with
      | some n => if n < pow2 32 then .ok (.integer n) else .error (.literal .hexadecimal)
      | none => .error (.literal .hexadecimal)
    else if digits.any fun c => c = 'e' || c = 'E' then .error (.literal .number)
    else .error (.literal .integer)
  | .decimal n =>
    if n.isWhole then
      let value : Int := if n.negative then -(n.digits : Int) else n.digits
      if -pow2 63 ≤ value ∧ value < pow2 63 then .ok (.integer value)
      else .error (.literal .integer)
    else
      let x := n.nearest
      if x.isFinite then .ok (.double x) else .error (.literal .tooLarge)
  | .infinity =>
    if sign = .plus then .error (.literal .integer)
    else .ok (.double (.infinity (sign = .minus)))
  | .nan =>
    if sign = .plus then .error (.literal .integer) else .ok (.double .nan)

/-- A number at the start of a text. -/
def takeNumber (cs : List Char) : Option (Tree × List Char) :=
  let (sign, cs) : Sign × List Char :=
    match cs with
    | '+' :: rest => (.plus, rest)
    | '-' :: rest => (.minus, rest)
    | cs => (.none, cs)
  (takeLiteral sign cs).map fun (literal, rest) => (.number (denoteNumber sign literal), rest)

/-! ## Documents -/

/-- A name before a colon, with or without quotes. -/
def takeName (cs : List Char) : Option (Read String × List Char) :=
  match cs with
  | '"' :: rest => (pieces '"' [] rest).map fun (done, rest) => (denoteText done, rest)
  | '\'' :: rest => (pieces '\'' [] rest).map fun (done, rest) => (denoteText done, rest)
  | cs =>
    match namePieces true [] cs with
    | ([], _) => none
    | (done, rest) => some (denoteText done, rest)

mutual

/-- The tree at the start of a text that starts with a token. -/
def takeValue (fuel : Nat) (cs : List Char) : Option (Tree × List Char) :=
  match fuel with
  | 0 => none
  | fuel + 1 =>
    match cs with
    | 'n' :: 'u' :: 'l' :: 'l' :: rest => some (.null, rest)
    | 't' :: 'r' :: 'u' :: 'e' :: rest => some (.bool true, rest)
    | 'f' :: 'a' :: 'l' :: 's' :: 'e' :: rest => some (.bool false, rest)
    | '"' :: rest => (pieces '"' [] rest).map fun (done, rest) => (.text (denoteText done), rest)
    | '\'' :: rest => (pieces '\'' [] rest).map fun (done, rest) => (.text (denoteText done), rest)
    | '[' :: rest =>
      match nextToken rest with
      | some (']' :: rest) => some (.list [] none, rest)
      | some rest => (takeItems fuel rest).map fun (items, rest) => (.list items none, rest)
      | none => none
    | '\x7b' :: rest =>
      match nextToken rest with
      | some ('\x7d' :: rest) => some (.object [] none, rest)
      | some rest => (takeMembers fuel rest).map fun (ms, rest) => (.object ms none, rest)
      | none => none
    | cs => takeNumber cs
termination_by structural fuel

/-- One or more items, a comma between two of them and perhaps at the end, and the bracket. -/
def takeItems (fuel : Nat) (cs : List Char) : Option (List Tree × List Char) :=
  match fuel with
  | 0 => none
  | fuel + 1 =>
    match takeValue fuel cs with
    | none => none
    | some (t, rest) =>
      match nextToken rest with
      | some (']' :: rest) => some ([t], rest)
      | some (',' :: rest) =>
        match nextToken rest with
        | some (']' :: rest) => some ([t], rest)
        | some rest => (takeItems fuel rest).map fun (items, rest) => (t :: items, rest)
        | none => none
      | _ => none
termination_by structural fuel

/-- One or more members, a comma between two of them and perhaps at the end, and the brace. -/
def takeMembers (fuel : Nat) (cs : List Char) : Option (List (Read String × Tree) × List Char) :=
  match fuel with
  | 0 => none
  | fuel + 1 =>
    match takeName cs with
    | none => none
    | some (name, rest) =>
      match nextToken rest with
      | some (':' :: rest) =>
        match (nextToken rest).bind (takeValue fuel) with
        | none => none
        | some (t, rest) =>
          match nextToken rest with
          | some ('\x7d' :: rest) => some ([(name, t)], rest)
          | some (',' :: rest) =>
            match nextToken rest with
            | some ('\x7d' :: rest) => some ([(name, t)], rest)
            | some rest =>
              (takeMembers fuel rest).map fun (members, rest) => ((name, t) :: members, rest)
            | none => none
          | _ => none
      | _ => none
termination_by structural fuel

end

/-- The tree of a text. -/
def read (text : String) : Read Tree :=
  let cs := text.toList
  let taken := do
    let cs ← nextToken cs
    let (t, rest) ← takeValue (2 * cs.length + 2) cs
    let rest ← nextToken rest
    if rest.isEmpty then some t else none
  match taken with
  | some t => .ok t
  | none => .error (.grammar .relaxed)

/-- A text fitted to a type. -/
def typed {α : Type} (reader : Dialect → Tree → Read α) (text : String) : Read α := do
  reader .relaxed (← read text)

/-- The value of a text. -/
def readValue (text : String) : Read Value := typed (fun _ t => t.toValue) text

end LintFront.Relaxed
