/-!
# Variable references

A text refers to a game variable by its number between dollar signs.  The number may carry one of
the letters `L`, `V` and `T`; without a letter its leading zeros do not count.
-/

namespace SceneFormula.Reference

/-- A nonempty run of decimal digits. -/
def isNumeral (cs : List Char) : Bool := !cs.isEmpty && cs.all Char.isDigit

def isScopeLetter (c : Char) : Bool := c = 'L' || c = 'V' || c = 'T'

/-- A numeral without its leading zeros; of zeros alone, one stays. -/
def trimZeros (ds : List Char) : List Char :=
  match ds.dropWhile (· = '0') with
  | [] => ['0']
  | rest => rest

/-- The variable id denoted by what stands between two dollar signs. -/
def id? : List Char → Option (List Char)
  | [] => none
  | c :: cs =>
    if isScopeLetter c then
      if isNumeral cs then some (c :: cs) else none
    else if isNumeral (c :: cs) then some (trimZeros (c :: cs))
    else none

/-- What stands before the next dollar sign. -/
def inside (cs : List Char) : List Char := cs.takeWhile (· ≠ '$')

/-- The text from the next dollar sign on. -/
def fromDollar (cs : List Char) : List Char := cs.dropWhile (· ≠ '$')

theorem length_fromDollar_le (cs : List Char) : (fromDollar cs).length ≤ cs.length :=
  (List.dropWhile_suffix _).length_le

/-- The ids referred to in a text, left to right, whatever else the text holds.  The dollar sign
that closes a reference is spent; one that closes anything else may open a reference. -/
def scan (cs : List Char) : List (List Char) :=
  match h : fromDollar cs with
  | [] => []
  | _ :: opened =>
    match h' : fromDollar opened with
    | [] => []
    | close :: rest =>
      have hcs := length_fromDollar_le cs
      have hopened := length_fromDollar_le opened
      have hlen : opened.length + 1 ≤ cs.length := by simpa [h] using hcs
      have hlen' : rest.length + 1 ≤ opened.length := by simpa [h'] using hopened
      match id? (inside opened) with
      | some id => id :: scan rest
      | none => scan (close :: rest)
termination_by cs.length
decreasing_by
  · omega
  · simp only [List.length_cons]
    omega

/-- The ids referred to in a text. -/
def ids (text : String) : List String := (scan text.toList).map String.ofList

end SceneFormula.Reference
