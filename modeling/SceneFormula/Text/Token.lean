/-!
# Tokens

The tokens of an expression text, and the names by which error messages call them.
-/

namespace SceneFormula

inductive Token where
  | number (n : Int64)
  | ident (name : String)
  /-- A variable reference, by the id it denotes. -/
  | reference (id : String)
  | truth (value : Bool)
  | leftParen
  | rightParen
  | comma
  | plus
  | minus
  | star
  | slash
  | percent
  | bang
  | tilde
  | equal
  | notEqual
  | less
  | lessEqual
  | greater
  | greaterEqual
  | shiftLeft
  | shiftRight
  | ampersand
  | pipe
  | caret
  | andAnd
  | orOr
  deriving DecidableEq

namespace Token

def label : Token → String
  | number n => "Number(" ++ toString n.toInt ++ ")"
  | ident name => "Ident(\"" ++ name ++ "\")"
  | reference id => "Variable(\"" ++ id ++ "\")"
  | truth true => "True"
  | truth false => "False"
  | leftParen => "LParen"
  | rightParen => "RParen"
  | comma => "Comma"
  | plus => "Plus"
  | minus => "Minus"
  | star => "Star"
  | slash => "Slash"
  | percent => "Percent"
  | bang => "Bang"
  | tilde => "Tilde"
  | equal => "EqEq"
  | notEqual => "Ne"
  | less => "Lt"
  | lessEqual => "Le"
  | greater => "Gt"
  | greaterEqual => "Ge"
  | shiftLeft => "Shl"
  | shiftRight => "Shr"
  | ampersand => "Amp"
  | pipe => "Pipe"
  | caret => "Caret"
  | andAnd => "AndAnd"
  | orOr => "OrOr"

/-- The token that a single sign spells. -/
def ofSign? : Char → Option Token
  | '(' => some leftParen
  | ')' => some rightParen
  | ',' => some comma
  | '+' => some plus
  | '-' => some minus
  | '*' => some star
  | '/' => some slash
  | '%' => some percent
  | '!' => some bang
  | '~' => some tilde
  | '<' => some less
  | '>' => some greater
  | '&' => some ampersand
  | '|' => some pipe
  | '^' => some caret
  | _ => none

/-- The token that two signs spell together. -/
def ofSigns? : Char → Char → Option Token
  | '&', '&' => some andAnd
  | '|', '|' => some orOr
  | '=', '=' => some equal
  | '!', '=' => some notEqual
  | '<', '=' => some lessEqual
  | '>', '=' => some greaterEqual
  | '<', '<' => some shiftLeft
  | '>', '>' => some shiftRight
  | _, _ => none

/-- The token that a word of letters, digits and underscores spells. -/
def ofWord (word : List Char) : Token :=
  if word = ['t', 'r', 'u', 'e'] then truth true
  else if word = ['f', 'a', 'l', 's', 'e'] then truth false
  else ident (String.ofList word)

end Token

end SceneFormula
