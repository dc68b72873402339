/-!
# JSON strings

A string is written between quotation marks.  Marks, backslashes and control characters are escaped
when it is written; when it is read, any character may be given by its UTF-16 code.
-/

namespace SceneFormula.Quoted

def isControl (c : Char) : Bool := c.toNat < 0x20

/-- The letter that stands for a character after a backslash. -/
def letter? : Char → Option Char
  | '\x22' => some '\x22'
  | '\\' => some '\\'
  | '\x08' => some 'b'
  | '\x0c' => some 'f'
  | '\n' => some 'n'
  | '\r' => some 'r'
  | '\t' => some 't'
  | _ => none

def escape (c : Char) : List Char :=
  match letter? c with
  | some e => ['\\', e]
  | none =>
    if isControl c then
      ['\\', 'u', '0', '0', Nat.digitChar (c.toNat / 16), Nat.digitChar (c.toNat % 16)]
    else [c]

/-- The written form of a string. -/
def write (s : List Char) : List Char := '\x22' :: (s.flatMap escape ++ ['\x22'])

/-! ### Reading -/

/-- A piece of a string: a character, or a UTF-16 code. -/
inductive Piece where
  | char (c : Char)
  | code (n : Nat)

/-- The character that a letter stands for after a backslash. -/
def ofLetter? : Char → Option Char
  | '\x22' => some '\x22'
  | '\\' => some '\\'
  | '/' => some '/'
  | 'b' => some '\x08'
  | 'f' => some '\x0c'
  | 'n' => some '\n'
  | 'r' => some '\r'
  | 't' => some '\t'
  | _ => none

def hexDigit? (c : Char) : Option Nat :=
  if c.isDigit then some (c.toNat - '0'.toNat)
  else if 'a' ≤ c ∧ c ≤ 'f' then some (c.toNat - 'a'.toNat + 10)
  else if 'A' ≤ c ∧ c ≤ 'F' then some (c.toNat - 'A'.toNat + 10)
  else none

/-- The number that four hexadecimal digits spell. -/
def code? (a b c d : Char) : Option Nat := do
  return (((← hexDigit? a) * 16 + (← hexDigit? b)) * 16 + (← hexDigit? c)) * 16 + (← hexDigit? d)

/-- The pieces up to the closing mark, and the text after it. -/
def pieces : List Char → Option (List Piece × List Char)
  | [] => none
  | '\x22' :: rest => some ([], rest)
  | '\\' :: 'u' :: a :: b :: c :: d :: rest => do
    let n ← code? a b c d
    let (ps, rest) ← pieces rest
    return (.code n :: ps, rest)
  | '\\' :: e :: rest => do
    let c ← ofLetter? e
    let (ps, rest) ← pieces rest
    return (.char c :: ps, rest)
  | c :: rest =>
    if c = '\\' || isControl c then none
    else do
      let (ps, rest) ← pieces rest
      return (.char c :: ps, rest)

def isHigh (n : Nat) : Bool := 0xD800 ≤ n && n < 0xDC00

def isLow (n : Nat) : Bool := 0xDC00 ≤ n && n < 0xE000

/-- The character of a high and a low surrogate. -/
def pair (high low : Nat) : Char := Char.ofNat (0x10000 + (high - 0xD800) * 0x400 + (low - 0xDC00))

/-- The characters that pieces spell; none if a surrogate stands alone. -/
def join : List Piece → Option (List Char)
  | [] => some []
  | .char c :: ps => (join ps).map (c :: ·)
  | .code n :: .code m :: ps =>
    if isHigh n then
      if isLow m then (join ps).map (pair n m :: ·) else none
    else if isLow n then none
    else (join (.code m :: ps)).map (Char.ofNat n :: ·)
  | .code n :: ps =>
    if isHigh n || isLow n then none else (join ps).map (Char.ofNat n :: ·)

/-- Reads a string after its opening mark.  A surrogate that stands alone leaves no string, but does
not break the text. -/
def read (cs : List Char) : Option (Option String × List Char) :=
  (pieces cs).map fun (ps, rest) => ((join ps).map String.ofList, rest)

end SceneFormula.Quoted
