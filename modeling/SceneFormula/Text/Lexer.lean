import SceneFormula.Text.SyntaxError
import SceneFormula.Text.Reference

/-!
# Lexing

A text is cut into tokens, each as long as it can be; blanks between them do not count.  Tokens and
blanks are spelled in ASCII, so up to the first fault a count of characters is a count of bytes.
-/

namespace SceneFormula

/-- A token with the bytes it takes up: from `start` on, and before `stop`. -/
structure Lexeme where
  token : Token
  start : Nat
  stop : Nat
  deriving DecidableEq

namespace Lexer

/-- The six blanks: space, tab, line feed, vertical tab, form feed and carriage return. -/
def isBlank (c : Char) : Bool := c = ' ' || ('\t' ≤ c && c ≤ '\r')

def isWordStart (c : Char) : Bool := c.isAlpha || c = '_'

def isWordChar (c : Char) : Bool := c.isAlphanum || c = '_'

/-- The greatest integer that a text can spell. -/
def maxInteger : Nat := 9223372036854775807

/-- The token that begins with `c` and goes on in `cs`, and how many characters of `cs` it takes. -/
def token (c : Char) (cs : List Char) : Except SyntaxFault (Token × Nat) :=
  if c.isDigit then
    let digits := cs.takeWhile Char.isDigit
    let value := Nat.ofDigitChars 10 (c :: digits) 0
    if value ≤ maxInteger then .ok (.number (Int64.ofNat value), digits.length)
    else .error .integerTooLarge
  else if c = '$' then
    let inside := Reference.inside cs
    if inside.length = cs.length then .error .unterminatedReference
    else match Reference.id? inside with
      | some id => .ok (.reference (String.ofList id), inside.length + 1)
      | none => .error (.invalidReference (String.ofList inside))
  else if isWordStart c then
    let more := cs.takeWhile isWordChar
    .ok (Token.ofWord (c :: more), more.length)
  else match cs.head?.bind (Token.ofSigns? c) with
    | some t => .ok (t, 1)
    | none => match Token.ofSign? c with
      | some t => .ok (t, 0)
      | none => .error (.unexpectedCharacter c)

/-- The tokens of a text that begins at byte `pos`. -/
def lexemes (pos : Nat) : List Char → Except SyntaxError (List Lexeme)
  | [] => .ok []
  | c :: cs =>
    if isBlank c then lexemes (pos + 1) cs
    else match token c cs with
      | .error fault => .error ⟨pos, fault⟩
      | .ok (t, n) =>
        match lexemes (pos + n + 1) (cs.drop n) with
        | .error e => .error e
        | .ok rest => .ok (⟨t, pos, pos + n + 1⟩ :: rest)
termination_by cs => cs.length

end Lexer

/-- The tokens of a text, in order. -/
def Lexeme.ofText? (text : String) : Except SyntaxError (List Lexeme) :=
  Lexer.lexemes 0 text.toList

end SceneFormula
