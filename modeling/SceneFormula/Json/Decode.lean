import SceneFormula.Error
import SceneFormula.Json.Basic

/-!
# Decoding

Why stored data cannot be decoded, and readers for the members of an object.
-/

namespace SceneFormula

inductive DecodeFault where
  /-- The text is no JSON, or nested too deeply. -/
  | malformed
  /-- A value of a wrong kind or length stands somewhere. -/
  | invalid
  /-- The value of a node is neither a number nor a string nor a node. -/
  | noMatch
  | missingField (key : String)
  | duplicateField (key : String)
  | unknownVariant (name : String) (expected : List String)
  /-- All parts are well formed, but they do not go together. -/
  | rejected (error : Error)
  deriving DecidableEq

namespace DecodeFault

/-- A name as messages show it, between grave accents. -/
def quote (name : String) : String := "\x60" ++ name ++ "\x60"

def message : DecodeFault → String
  | malformed => "malformed"
  | invalid => "invalid"
  | noMatch => "no match"
  | missingField key => "missing field " ++ quote key
  | duplicateField key => "duplicate field " ++ quote key
  | unknownVariant name expected =>
    "unknown variant " ++ quote name ++ ", expected one of " ++
      ", ".intercalate (expected.map quote)
  | rejected error => error.message

end DecodeFault

namespace Json

variable {ν : Type}

/-- The value of the first member of a key. -/
def find? (key : String) (members : List (String × Json ν)) : Option (Json ν) :=
  (members.find? (·.1 == key)).map Prod.snd

def field (key : String) (members : List (String × Json ν)) : Except DecodeFault (Json ν) :=
  match find? key members with
  | some j => .ok j
  | none => .error (.missingField key)

def text : Json ν → Except DecodeFault String
  | string s => .ok s
  | _ => .error .invalid

end Json

end SceneFormula
