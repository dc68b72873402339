import SceneFormula.Json.Basic
import SceneFormula.Json.Quoted

/-!
# Writing JSON

A value is written on one line without blanks, or with each item on a line of its own, indented by
two spaces for every array and object around it.
-/

namespace SceneFormula

/-- How a value is laid out: on one line, or on lines inside `depth` arrays and objects. -/
inductive Layout where
  | compact
  | lines (depth : Nat)

namespace Layout

def inner : Layout → Layout
  | compact => compact
  | lines depth => lines (depth + 1)

/-- What separates an item from what stands before it. -/
def newline : Layout → List Char
  | compact => []
  | lines depth => '\n' :: List.replicate (2 * depth) ' '

/-- What stands between a key and its value. -/
def colon : Layout → List Char
  | compact => [':']
  | lines _ => [':', ' ']

end Layout

namespace Json

def writeBool : Bool → List Char
  | true => ['t', 'r', 'u', 'e']
  | false => ['f', 'a', 'l', 's', 'e']

def writeInt : Int → List Char
  | .ofNat n => Nat.toDigits 10 n
  | .negSucc n => '-' :: Nat.toDigits 10 (n + 1)

mutual

/-- The text of a value, and `tail` after it. -/
def write (layout : Layout) : Json Int → List Char → List Char
  | null, tail => 'n' :: 'u' :: 'l' :: 'l' :: tail
  | bool b, tail => writeBool b ++ tail
  | number k, tail => writeInt k ++ tail
  | string s, tail => Quoted.write s.toList ++ tail
  | array [], tail => '[' :: ']' :: tail
  | array (j :: js), tail =>
    '[' :: (layout.inner.newline ++ write layout.inner j
      (writeItems layout.inner js (layout.newline ++ ']' :: tail)))
  | object [], tail => '\x7b' :: '\x7d' :: tail
  | object ((key, j) :: ms), tail =>
    '\x7b' :: (layout.inner.newline ++ Quoted.write key.toList ++ layout.colon ++
      write layout.inner j (writeMembers layout.inner ms (layout.newline ++ '\x7d' :: tail)))

/-- The text of the items after the first. -/
def writeItems (layout : Layout) : List (Json Int) → List Char → List Char
  | [], tail => tail
  | j :: js, tail => ',' :: (layout.newline ++ write layout j (writeItems layout js tail))

/-- The text of the members after the first. -/
def writeMembers (layout : Layout) : List (String × Json Int) → List Char → List Char
  | [], tail => tail
  | (key, j) :: ms, tail =>
    ',' :: (layout.newline ++ Quoted.write key.toList ++ layout.colon ++
      write layout j (writeMembers layout ms tail))

end

def compact (j : Json Int) : String := String.ofList (j.write .compact [])

def pretty (j : Json Int) : String := String.ofList (j.write (.lines 0) [])

end Json

end SceneFormula
