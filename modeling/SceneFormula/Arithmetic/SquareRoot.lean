/-!
# Integer square roots

The floor of the square root of a word.  A floating-point estimate is corrected, first downwards
and then upwards, against exact products, so the result does not depend on the estimate.
-/

namespace SceneFormula.SquareRoot

/-- The square of a word, as an exact integer. -/
def square (r : Int64) : Int := r.toInt * r.toInt

/-- Lowers a root, but not below zero, until its square does not exceed `x`. -/
def lower (x r : Int64) : Int64 :=
  if 0 < r.toInt ∧ x.toInt < square r then lower x (r - 1) else r
termination_by r.toInt.toNat
decreasing_by
  have hr := r.toInt_lt
  have h : (r - 1).toInt = r.toInt - 1 := by
    rw [Int64.toInt_sub, show (1 : Int64).toInt = 1 from rfl]
    exact Int.bmod_eq_of_le (by omega) (by omega)
  omega

/-- Raises a root until the square of the next one exceeds `x`. -/
def raise (x r : Int64) : Int64 :=
  if square (r + 1) ≤ x.toInt then raise x (r + 1) else r
termination_by (Int64.maxValue.toInt - r.toInt).toNat
decreasing_by
  rename_i hs
  have hmax : Int64.maxValue.toInt = 9223372036854775807 := rfl
  have hr := r.toInt_lt
  have hr' := r.le_toInt
  have hx := x.toInt_lt
  have hne : r ≠ Int64.maxValue := by
    rintro rfl
    rw [show square (Int64.maxValue + 1) = 9223372036854775808 * 9223372036854775808 from rfl] at hs
    omega
  have hlt : r.toInt ≠ 9223372036854775807 := fun h => hne (Int64.toInt.inj (h.trans hmax.symm))
  have h : (r + 1).toInt = r.toInt + 1 := by
    rw [Int64.toInt_add, show (1 : Int64).toInt = 1 from rfl]
    exact Int.bmod_eq_of_le (by omega) (by omega)
  omega

/-- The corrected root of a positive word, from any estimate. -/
def correct (x estimate : Int64) : Int64 := raise x (lower x estimate)

/-- The floor of the square root; words below zero have root zero. -/
def floor (x : Int64) : Int64 :=
  if x ≤ 0 then 0 else correct x x.toFloat.sqrt.toInt64

end SceneFormula.SquareRoot
