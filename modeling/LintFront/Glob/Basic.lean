/-!
# Patterns for paths

A pattern matches whole paths, whose parts are divided by slashes.

* `Token`: what a pattern is made of.
* `Glob.parse?`: the tokens of a pattern; some texts are no pattern.
* `Glob.accepts`: whether tokens match a path.
* `globMatches`: whether a text is a pattern that matches a path.
* `globEscape`: the pattern that matches one text only.
-/

namespace LintFront

/-- A member of a character class: one character, or all from one to another. -/
inductive ClassItem
  | single (c : Char)
  | range (first last : Char)
  deriving DecidableEq, Repr

/-- What a pattern is made of. -/
inductive Token
  /-- This character. -/
  | char (c : Char)
  /-- Any one character of a path part. -/
  | anyChar
  /-- Any characters of a path part. -/
  | anySequence
  /-- Any number of whole path parts. -/
  | anyParts
  /-- One character of a class, or one outside of it. -/
  | oneOf (negated : Bool) (items : List ClassItem)
  deriving DecidableEq, Repr

namespace Glob

/-! ## Reading a pattern -/

/-- The members of a class: a dash between two characters makes a range. -/
def classItems : List Char → List ClassItem
  | a :: '-' :: b :: rest => .range a b :: classItems rest
  | a :: rest => .single a :: classItems rest
  | [] => []

/-- Where a reader of a pattern stands. -/
inductive Place
  /-- Between tokens; two stars may stand here only at the start of a path part. -/
  | between (atPart : Bool)
  /-- In a class, whose members so far are given last first. The first one may be a bracket. -/
  | inClass (negated : Bool) (body : List Char)
  deriving DecidableEq, Repr

/-- The tokens of the rest of a pattern. Two stars must be a whole path part, three are no
pattern, and a class must end. -/
def parseFrom : Place → List Char → Option (List Token)
  | .between _, [] => some []
  | .between _, '?' :: rest => (parseFrom (.between false) rest).map (.anyChar :: ·)
  | .between _, '*' :: '*' :: '*' :: _ => none
  | .between atPart, '*' :: '*' :: '/' :: rest =>
    if atPart then (parseFrom (.between true) rest).map (.anyParts :: ·) else none
  | .between atPart, ['*', '*'] => if atPart then some [.anyParts] else none
  | .between _, '*' :: '*' :: _ => none
  | .between _, '*' :: rest => (parseFrom (.between false) rest).map (.anySequence :: ·)
  | .between _, '[' :: '!' :: rest => parseFrom (.inClass true []) rest
  | .between _, '[' :: rest => parseFrom (.inClass false []) rest
  | .between _, c :: rest => (parseFrom (.between (c = '/')) rest).map (.char c :: ·)
  | .inClass _ _, [] => none
  | .inClass negated body, c :: rest =>
    if c = ']' && !body.isEmpty then
      (parseFrom (.between false) rest).map (.oneOf negated (classItems body.reverse) :: ·)
    else parseFrom (.inClass negated (c :: body)) rest

/-- The tokens of a pattern; `none` if the text is no pattern. -/
def parse? (pattern : List Char) : Option (List Token) := parseFrom (.between true) pattern

/-! ## Matching -/

/-- Whether a member of a class is the character. -/
def holds (c : Char) : ClassItem → Bool
  | .single d => c = d
  | .range first last => first ≤ c && c ≤ last

/-- Whether a token for one character takes the character. Only a slash takes a slash. -/
def takesChar (c : Char) : Token → Bool
  | .char d => c = d
  | .anyChar => c != '/'
  | .oneOf negated items => c != '/' && (items.any (holds c) != negated)
  | .anySequence => false
  | .anyParts => false

/-- Whether `p` holds of the path, or of what is left of it after some characters of its first
part. -/
def withinPart (p : List Char → Bool) : List Char → Bool
  | [] => p []
  | c :: rest => p (c :: rest) || (c != '/' && withinPart p rest)

/-- Whether `p` holds of what is left of the path after a slash, or of nothing. -/
def afterSlash (p : List Char → Bool) : List Char → Bool
  | [] => p []
  | c :: rest => if c = '/' then p rest || afterSlash p rest else afterSlash p rest

/-- Whether tokens match a path. -/
def accepts : List Token → List Char → Bool
  | [], path => path.isEmpty
  | .anySequence :: tokens, path => withinPart (accepts tokens) path
  | .anyParts :: tokens, path => accepts tokens path || afterSlash (accepts tokens) path
  | token :: tokens, c :: path => takesChar c token && accepts tokens path
  | _ :: _, [] => false

end Glob

/-- Whether a text is a pattern that matches a path. -/
def globMatches (pattern path : String) : Bool :=
  match Glob.parse? pattern.toList with
  | some tokens => Glob.accepts tokens path.toList
  | none => false

/-! ## Escaping -/

/-- Whether a character has a meaning of its own in a pattern and must be put in a class. -/
def isGlobSpecial (c : Char) : Bool := c = '?' || c = '*' || c = '[' || c = ']'

/-- The characters of a pattern that matches one text only. -/
def escapeChars (cs : List Char) : List Char :=
  cs.flatMap fun c => if isGlobSpecial c then ['[', c, ']'] else [c]

/-- The pattern that matches one text only. -/
def globEscape (text : String) : String := String.ofList (escapeChars text.toList)

end LintFront
