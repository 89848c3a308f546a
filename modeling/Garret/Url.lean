import Garret.Common

/-!
# Strings of URLs

`reqwest::Url::parse` is the WHATWG URL parser, a crate of its own. What the programs read of its
answer is the scheme and the host; the parser itself is a parameter, `UrlParser`.
-/

namespace Garret

/-- `scheme()` and `host_str()` of a parsed URL. -/
structure Url where
  scheme : String
  host : Option String
  deriving DecidableEq

/-- `Url::parse`. -/
abbrev UrlParser := String → Option Url

/-- `str::starts_with`. -/
def startsWith (pre s : String) : Bool := pre.toList.isPrefixOf s.toList

end Garret
