/-!
# File paths

A path is compared by its components: repeated and trailing slashes do not count, nor does a dot
except as the first component of a relative path.
-/

namespace GrammarTrace.Text

/-- The pieces of a path between its slashes. -/
def pathPieces (path : String) : List String :=
  (path.toList.splitOn '/').map String.ofList

/-- The components of a path; an absolute path begins with a slash. -/
def pathComponents (path : String) : List String :=
  let pieces := pathPieces path
  let proper := pieces.filter fun piece => piece ≠ "" && piece ≠ "."
  match pieces with
  | "" :: _ :: _ => "/" :: proper
  | "." :: _ => "." :: proper
  | _ => proper

/-- Whether two paths have the same components. -/
def samePath (left right : String) : Bool := pathComponents left == pathComponents right

end GrammarTrace.Text
