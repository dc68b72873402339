/-!
# JSON numbers

A number is a whole number of any size, or a floating-point number.  One that is written without a
fraction and an exponent is whole if it fits into 64 bits.
-/

namespace SceneFormula

inductive JsonNumber where
  | integer (k : Int)
  | decimal (x : Float)

namespace JsonNumber

/-- The word that a number without a fraction denotes; a number out of range denotes the nearest
word. -/
def toInt64? : JsonNumber → Option Int64
  | integer k => some (Int64.ofIntClamp k)
  | decimal x => if x.isFinite && x.floor == x then some x.toInt64 else none

end JsonNumber

/-- A number as it is written. -/
structure Numeral where
  negative : Bool
  /-- The digits before the point. -/
  whole : List Char
  /-- The digits after the point. -/
  fraction : List Char
  exponent : Option Int

namespace Numeral

/-! ### Value -/

/-- Appends digits to a significand for as long as it fits into 64 bits.  The digits from the first
one that does not fit are left over. -/
def absorb (m : Nat) : List Char → Nat × List Char
  | [] => (m, [])
  | d :: ds =>
    let next := 10 * m + (d.toNat - '0'.toNat)
    if next < UInt64.size then absorb next ds else (m, d :: ds)

def powerOfTen (n : Nat) : Float := Float.ofScientific 1 false n

/-- `x` divided by the `n`-th power of ten. -/
def shrink (x : Float) (n : Nat) : Float :=
  if n ≤ 308 then x / powerOfTen n
  else if x == 0 then x
  else shrink (x / powerOfTen 308) (n - 308)
termination_by n

/-- `x` multiplied by the `e`-th power of ten, if that is finite. -/
def scale? (x : Float) : Int → Option Float
  | .ofNat n =>
    if n ≤ 308 then
      let y := x * powerOfTen n
      if y.isInf then none else some y
    else if x == 0 then some x
    else none
  | .negSucc n => some (shrink x (n + 1))

/-- The floating-point number nearest to the numeral, up to the rounding of one or two steps; none
if it is too great. -/
def decimal? (l : Numeral) : Option Float :=
  let (m, untaken) := absorb 0 l.whole
  let (m, dropped) := absorb m l.fraction
  let e := l.exponent.getD 0 + untaken.length - (l.fraction.length - dropped.length : Nat)
  (scale? m.toUInt64.toFloat e).map fun x => if l.negative then -x else x

/-- The greatest magnitude that a whole number can have in 64 bits; they are signed below zero. -/
def maxMagnitude (negative : Bool) : Nat :=
  if negative then 9223372036854775808 else 18446744073709551615

/-- The number that is written; none if it is too great. -/
def value? (l : Numeral) : Option JsonNumber :=
  let k := Nat.ofDigitChars 10 l.whole 0
  if l.fraction.isEmpty && l.exponent.isNone && k ≤ maxMagnitude l.negative then
    some (.integer (if l.negative then -k else k))
  else l.decimal?.map .decimal

/-! ### Reading -/

/-- Digits, of which there has to be one. -/
def digits (cs : List Char) : Option (List Char × List Char) :=
  match cs.takeWhile Char.isDigit with
  | [] => none
  | ds => some (ds, cs.dropWhile Char.isDigit)

def readSign : List Char → Bool × List Char
  | '-' :: cs => (true, cs)
  | cs => (false, cs)

def readFraction : List Char → Option (List Char × List Char)
  | '.' :: cs => digits cs
  | cs => some ([], cs)

def readMagnitude (cs : List Char) : Option (Int × List Char) :=
  (digits cs).map fun (ds, rest) => ((Nat.ofDigitChars 10 ds 0 : Int), rest)

/-- The exponent after its mark. -/
def readScale : List Char → Option (Int × List Char)
  | '+' :: cs => readMagnitude cs
  | '-' :: cs => (readMagnitude cs).map fun (e, rest) => (-e, rest)
  | cs => readMagnitude cs

def readExponent : List Char → Option (Option Int × List Char)
  | [] => some (none, [])
  | c :: cs =>
    if c = 'e' ∨ c = 'E' then (readScale cs).map fun (e, rest) => (some e, rest)
    else some (none, c :: cs)

/-- Reads a numeral.  Its first digit is a zero only if no other digit follows before the point. -/
def read (cs : List Char) : Option (Numeral × List Char) := do
  let (negative, cs) := readSign cs
  let (whole, cs) ← digits cs
  if whole.head? = some '0' ∧ whole.length ≠ 1 then none
  let (fraction, cs) ← readFraction cs
  let (exponent, cs) ← readExponent cs
  return (⟨negative, whole, fraction, exponent⟩, cs)

end Numeral

end SceneFormula
