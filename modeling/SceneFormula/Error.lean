/-!
# Errors

What the library reports to its callers: the family an error belongs to and a line of detail.
-/

namespace SceneFormula

inductive ErrorKind where
  | validation
  | parse
  | evaluation
  | serialization
  deriving DecidableEq

def ErrorKind.heading : ErrorKind → String
  | .validation => "validation error: "
  | .parse => "parse error: "
  | .evaluation => "evaluation error: "
  | .serialization => "serialization error: "

structure Error where
  kind : ErrorKind
  detail : String
  deriving DecidableEq

def Error.message (e : Error) : String := e.kind.heading ++ e.detail

end SceneFormula
