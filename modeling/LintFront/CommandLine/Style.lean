/-!
# Styled text

* `Style`: how a piece of text stands out on a terminal.
* `paint`: a text in a style, where colours are shown, and the bare text elsewhere.
-/

namespace LintFront

/-- How a piece of text stands out. -/
inductive Style
  | dimmed
  | bold
  | heading
  | identifier
  | caution
  | warning
  | failure
  deriving DecidableEq, Repr, Inhabited

/-- The sequence that ends every style. -/
def styleEnd : String := "\x1b[0m"

/-- The sequence that starts a style. -/
def Style.start : Style → String
  | .dimmed => "\x1b[2m"
  | .bold => "\x1b[1m"
  | .heading => "\x1b[1m\x1b[4m"
  | .identifier => "\x1b[36m"
  | .caution => "\x1b[33m"
  | .warning => "\x1b[1;33m"
  | .failure => "\x1b[1;31m"

/-- A text in a style. Where the text ends a style of its own, this one goes on. -/
def paint (colours : Bool) (style : Style) (text : String) : String :=
  if colours then style.start ++ text.replace styleEnd (styleEnd ++ style.start) ++ styleEnd
  else text

end LintFront
