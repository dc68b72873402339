import SceneFormula.Error
import SceneFormula.Text.Token

/-!
# Syntax errors

Why an expression text cannot be read, and at which byte.
-/

namespace SceneFormula

/-- Why a text cannot be read.  Where a token is named, `none` is the end of the text. -/
inductive SyntaxFault where
  | integerTooLarge
  | unterminatedReference
  | invalidReference (inside : String)
  | unexpectedCharacter (c : Char)
  | unexpected (found : Option Token)
  | expected (wanted found : Option Token)
  | unknownFunction (name : String)
  | argumentCount (name : String) (wanted given : Nat)
  | nestedTooDeeply
  deriving DecidableEq

namespace SyntaxFault

def tokenLabel : Option Token → String
  | none => "Eof"
  | some t => t.label

def message : SyntaxFault → String
  | integerTooLarge => "integer literal out of range"
  | unterminatedReference => "unterminated variable reference"
  | invalidReference inside => "invalid variable reference '$" ++ inside ++ "$'"
  | unexpectedCharacter c => "unexpected character '" ++ String.singleton c ++ "'"
  | unexpected found => "unexpected token " ++ tokenLabel found
  | expected wanted found => "expected " ++ tokenLabel wanted ++ ", found " ++ tokenLabel found
  | unknownFunction name => "unknown function '" ++ name ++ "'"
  | argumentCount name wanted given =>
    name ++ " expects " ++ toString wanted ++ (if wanted = 1 then " argument" else " arguments") ++
      ", got " ++ toString given
  | nestedTooDeeply => "expression nested too deeply"

end SyntaxFault

structure SyntaxError where
  /-- The byte of the text at which the fault was found. -/
  offset : Nat
  fault : SyntaxFault
  deriving DecidableEq

def SyntaxError.toError (e : SyntaxError) : Error :=
  ⟨.parse, "at byte " ++ toString e.offset ++ ": " ++ e.fault.message⟩

end SceneFormula
