import LintFront.Text.Segments

/-!
# Where the program has been loaded from

A program that was loaded over the network may not import local files itself.
-/

namespace LintFront

/-- Where the program has been loaded from. -/
inductive Origin
  /-- An installation. -/
  | installed
  /-- A URL on the network. -/
  | remote (url : String)
  deriving DecidableEq, Repr, Inhabited

namespace Origin

/-- Whether a URL is one of the network. -/
def isNetworkUrl (url : String) : Bool :=
  "http://".toList.isPrefixOf url.toList || "https://".toList.isPrefixOf url.toList

/-- The origin by the URL of the main module, if there is one. -/
def ofMainModule : Option String → Origin
  | some url => if isNetworkUrl url then .remote url else .installed
  | none => .installed

def isRemote : Origin → Bool
  | .remote _ => true
  | .installed => false

/-- The URL of a remote origin. -/
def url? : Origin → Option String
  | .remote url => some url
  | .installed => none

end Origin

end LintFront
