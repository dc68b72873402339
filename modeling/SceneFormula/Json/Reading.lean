import SceneFormula.Json.Basic
import SceneFormula.Json.Numeral
import SceneFormula.Json.Quoted

/-!
# Reading JSON

A text is read as far as its grammar allows, and what stands before the place where it breaks off
is kept.  Whoever decodes a value can so meet a fault in it before the text's own fault.
-/

namespace SceneFormula

/-- How an array or an object ends. -/
inductive Ending where
  | closed
  /-- The text breaks off. -/
  | broken
  deriving DecidableEq

/-- What a text holds.  A string is missing if a surrogate stands alone in it. -/
inductive Reading where
  /-- The text breaks off where a value is due. -/
  | broken
  | null
  | bool (value : Bool)
  | number (numeral : Numeral)
  | string (s : Option String)
  | array (items : List Reading) (ending : Ending)
  | object (members : List (Option String × Reading)) (ending : Ending)

namespace Reading

def isBlank (c : Char) : Bool := c = ' ' || c = '\n' || c = '\r' || c = '\t'

def skipBlanks (cs : List Char) : List Char := cs.dropWhile isBlank

/-- Reads a value that is neither an array nor an object. -/
def scalar : List Char → Option (Reading × List Char)
  | 'n' :: 'u' :: 'l' :: 'l' :: rest => some (null, rest)
  | 't' :: 'r' :: 'u' :: 'e' :: rest => some (bool true, rest)
  | 'f' :: 'a' :: 'l' :: 's' :: 'e' :: rest => some (bool false, rest)
  | '\x22' :: rest => (Quoted.read rest).map fun (s, rest) => (string s, rest)
  | cs => (Numeral.read cs).map fun (l, rest) => (number l, rest)

/-- The ending before the text that is left, if any is. -/
def endingBefore : Option (List Char) → Ending
  | some _ => .closed
  | none => .broken

mutual

/-- Reads a value, and yields the text after it unless the text breaks off.  Every call spends fuel,
and every second one a character. -/
def value : Nat → List Char → Reading × Option (List Char)
  | 0, _ => (broken, none)
  | fuel + 1, cs =>
    match skipBlanks cs with
    | '[' :: rest =>
      match skipBlanks rest with
      | ']' :: rest => (array [] .closed, some rest)
      | rest =>
        let (items, after) := items fuel rest
        (array items (endingBefore after), after)
    | '\x7b' :: rest =>
      match skipBlanks rest with
      | '\x7d' :: rest => (object [] .closed, some rest)
      | '\x22' :: rest =>
        let (members, after) := members fuel rest
        (object members (endingBefore after), after)
      | _ => (object [] .broken, none)
    | rest =>
      match scalar rest with
      | some (r, after) => (r, some after)
      | none => (broken, none)

/-- Reads items up to and with the closing bracket. -/
def items : Nat → List Char → List Reading × Option (List Char)
  | 0, _ => ([], none)
  | fuel + 1, cs =>
    match value fuel cs with
    | (r, none) => ([r], none)
    | (r, some after) =>
      match skipBlanks after with
      | ',' :: rest =>
        let (rs, after) := items fuel rest
        (r :: rs, after)
      | ']' :: rest => ([r], some rest)
      | _ => ([r], none)

/-- Reads members up to and with the closing brace, from after the first key's opening mark. -/
def members : Nat → List Char → List (Option String × Reading) × Option (List Char)
  | 0, _ => ([], none)
  | fuel + 1, cs =>
    match Quoted.read cs with
    | none => ([], none)
    | some (key, after) =>
      match skipBlanks after with
      | ':' :: rest =>
        match value fuel rest with
        | (r, none) => ([(key, r)], none)
        | (r, some after) =>
          match skipBlanks after with
          | ',' :: rest =>
            match skipBlanks rest with
            | '\x22' :: rest =>
              let (ms, after) := members fuel rest
              ((key, r) :: ms, after)
            | _ => ([(key, r)], none)
          | '\x7d' :: rest => ([(key, r)], some rest)
          | _ => ([(key, r)], none)
      | _ => ([(key, broken)], none)

end

/-- Reads the value at the front of a text. -/
def read (cs : List Char) : Reading × Option (List Char) := value (2 * cs.length + 1) cs

/-- Whether a value was the last in its text, given what stands after it. -/
def isLast : Option (List Char) → Bool
  | some rest => rest.all isBlank
  | none => false

/-! ### Values -/

mutual

/-- The JSON value that was read, if it is whole and at most `room` arrays and objects are open at
once. -/
def json? (room : Nat) : Reading → Option (Json JsonNumber)
  | broken => none
  | null => some .null
  | bool b => some (.bool b)
  | number l => l.value?.map .number
  | string s => s.map .string
  | array rs ending =>
    match room, ending with
    | room + 1, .closed => (jsonItems? room rs).map .array
    | _, _ => none
  | object ms ending =>
    match room, ending with
    | room + 1, .closed => (jsonMembers? room ms).map .object
    | _, _ => none

def jsonItems? (room : Nat) : List Reading → Option (List (Json JsonNumber))
  | [] => some []
  | r :: rs => do
    let j ← r.json? room
    let js ← jsonItems? room rs
    return j :: js

def jsonMembers? (room : Nat) :
    List (Option String × Reading) → Option (List (String × Json JsonNumber))
  | [] => some []
  | (key, r) :: ms => do
    let key ← key
    let j ← r.json? room
    let ms ← jsonMembers? room ms
    return (key, j) :: ms

end

end Reading

/-- The JSON value that a text spells, if at most `room` arrays and objects are open at once. -/
def Json.ofText? (room : Nat) (text : String) : Option (Json JsonNumber) :=
  let (r, after) := Reading.read text.toList
  if Reading.isLast after then r.json? room else none

end SceneFormula
