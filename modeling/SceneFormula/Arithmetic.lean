import SceneFormula.Operator
import SceneFormula.Arithmetic.SquareRoot
import SceneFormula.Arithmetic.Angle

/-!
# Arithmetic of the operators

Values are signed 64-bit words and arithmetic wraps.  Shifts and bit operators see only the low 32
bits of their operands, as a signed word; a shift count is taken modulo 32.  Division and remainder
have no result on a zero divisor, and a random draw has none outside a running program.
-/

namespace SceneFormula

/-- The low 32 bits of a word, as a signed word. -/
def low (a : Int64) : Int32 := a.toInt32

def BinaryOp.result? (op : BinaryOp) (a b : Int64) : Option Int64 :=
  match op with
  | .add => some (a + b)
  | .sub => some (a - b)
  | .mul => some (a * b)
  | .div => if b = 0 then none else some (a / b)
  | .rem => if b = 0 then none else some (a % b)
  | .gt => some (decide (b < a)).toInt64
  | .ge => some (decide (b ≤ a)).toInt64
  | .lt => some (decide (a < b)).toInt64
  | .le => some (decide (a ≤ b)).toInt64
  | .eq => some (decide (a = b)).toInt64
  | .ne => some (decide (a ≠ b)).toInt64
  | .min => some (if a ≤ b then a else b)
  | .max => some (if a ≤ b then b else a)
  | .and => some (decide (a ≠ 0 ∧ b ≠ 0)).toInt64
  | .or => some (decide (a ≠ 0 ∨ b ≠ 0)).toInt64
  | .shiftLeft => some (low a <<< low b).toInt64
  | .shiftRight => some (low a >>> low b).toInt64
  | .bitAnd => some (low a &&& low b).toInt64
  | .bitOr => some (low a ||| low b).toInt64
  | .bitXor => some (low a ^^^ low b).toInt64
  | .angle => some (Angle.ofVector a b)

def UnaryOp.result? (op : UnaryOp) (x : Int64) : Option Int64 :=
  match op with
  | .not => some (decide (x = 0)).toInt64
  | .abs => some (if x < 0 then -x else x)
  | .sqrt => some (SquareRoot.floor x)
  | .complement => some (~~~ low x).toInt64
  | .random => none

theorem BinaryOp.result?_eq_none_iff {op : BinaryOp} {a b : Int64} :
    op.result? a b = none ↔ (op = .div ∨ op = .rem) ∧ b = 0 := by
  cases op <;> simp [result?]

theorem UnaryOp.result?_eq_none_iff {op : UnaryOp} {x : Int64} :
    op.result? x = none ↔ op = .random := by
  cases op <;> simp [result?]

theorem UnaryOp.eq_random_or_exists_result? (op : UnaryOp) (x : Int64) :
    op = .random ∨ ∃ n, op.result? x = some n := by
  cases op <;> simp [result?]

end SceneFormula
