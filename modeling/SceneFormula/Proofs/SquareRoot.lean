import SceneFormula.Arithmetic.SquareRoot
import Mathlib.Tactic

/-!
# Exact square roots

The correction of an estimate as two loops over words.  A square that fits no word counts as too
large, and a root that could not be lowered or raised within the words would be a fault.  From any
estimate that is not negative both loops end without a fault, at the floor of the square root, so
nothing depends on how good the estimate is.
-/

namespace SceneFormula.SquareRoot

/-! ### Loops with faults -/

/-- The word for an exact integer, if there is one. -/
def word? (n : Int) : Option Int64 :=
  if -2 ^ 63 ≤ n ∧ n < 2 ^ 63 then some (Int64.ofInt n) else none

/-- `While test body r t`: the loop that goes on as long as `test` says so ends at `t` when it is
entered with `r`, and neither `test` nor `body` has a fault on the way. -/
inductive While (test : Int64 → Option Bool) (body : Int64 → Option Int64) : Int64 → Int64 → Prop
  | exit {r} (htest : test r = some false) : While test body r r
  | again {r s t} (htest : test r = some true) (hbody : body r = some s)
      (hrest : While test body s t) : While test body r t

theorem While.unique {test : Int64 → Option Bool} {body : Int64 → Option Int64} {r s t : Int64}
    (hs : While test body r s) (ht : While test body r t) : s = t := by
  induction hs with
  | exit htest =>
    cases ht with
    | exit => rfl
    | again htest' => simp [htest] at htest'
  | again htest hbody _ ih =>
    cases ht with
    | exit htest' => simp [htest] at htest'
    | again _ hbody' hrest =>
      rw [hbody] at hbody'
      cases hbody'
      exact ih hrest

/-- The square of `r` is too large for a root of `x`; so is one that fits no word. -/
def exceeds (x r : Int64) : Bool := (word? (square r)).all (x < ·)

def Lowers (x : Int64) : Int64 → Int64 → Prop :=
  While (fun r => some (exceeds x r)) fun r => word? (r.toInt - 1)

def Raises (x : Int64) : Int64 → Int64 → Prop :=
  While (fun r => (word? (r.toInt + 1)).map fun next => !exceeds x next) fun r =>
    word? (r.toInt + 1)

/-! ### Words near a root -/

variable {x r : Int64}

theorem square_nonneg (r : Int64) : 0 ≤ square r := mul_self_nonneg r.toInt

theorem exceeds_iff : exceeds x r = true ↔ x.toInt < square r := by
  have hnonneg := square_nonneg r
  have hx := x.toInt_lt
  unfold exceeds word?
  split
  next h => simp [Int64.lt_iff_toInt_lt, Int64.toInt_ofInt_of_le h.1 h.2]
  next h =>
    simp only [Option.all_none, true_iff]
    omega

theorem toInt_sub_one (h : 0 ≤ r.toInt) : (r - 1).toInt = r.toInt - 1 := by
  have hr := r.toInt_lt
  rw [Int64.toInt_sub, Int64.toInt_one]
  exact Int.bmod_eq_of_le (by omega) (by omega)

theorem toInt_add_one (h : 0 ≤ r.toInt) (hr : r.toInt < 2 ^ 63 - 1) :
    (r + 1).toInt = r.toInt + 1 := by
  rw [Int64.toInt_add, Int64.toInt_one]
  exact Int.bmod_eq_of_le (by omega) (by omega)

theorem word?_toInt (r : Int64) : word? r.toInt = some r := by
  rw [word?, if_pos ⟨r.le_toInt, r.toInt_lt⟩, Int64.ofInt_toInt]

theorem word?_sub_one (h : 0 ≤ r.toInt) : word? (r.toInt - 1) = some (r - 1) := by
  rw [← toInt_sub_one h, word?_toInt]

/-- The roots that are raised are below `2 ^ 32`, far from the greatest word. -/
theorem toInt_lt_of_square_le (h : square r ≤ x.toInt) : r.toInt < 2 ^ 32 := by
  have hx := x.toInt_lt
  rw [square] at h
  by_contra hr
  nlinarith

theorem word?_add_one (h : 0 ≤ r.toInt) (hsquare : square r ≤ x.toInt) :
    word? (r.toInt + 1) = some (r + 1) := by
  have hr := toInt_lt_of_square_le hsquare
  rw [← toInt_add_one h (by omega), word?_toInt]

/-! ### The two loops -/

/-- The first loop ends, at an estimate that is not too large. -/
theorem lowers_lower (hx : 0 < x.toInt) (hr : 0 ≤ r.toInt) :
    Lowers x r (lower x r) ∧ 0 ≤ (lower x r).toInt ∧ square (lower x r) ≤ x.toInt := by
  induction r using lower.induct x with
  | case1 r h ih =>
    obtain ⟨hlowers, hresult⟩ := ih (by rw [toInt_sub_one hr]; omega)
    rw [lower, if_pos h]
    refine ⟨.again ?_ (word?_sub_one hr) hlowers, hresult⟩
    rw [exceeds_iff.mpr h.2]
  | case2 r h =>
    -- Zero is not too large, so the loop does not go on to negative estimates.
    have hle : square r ≤ x.toInt := by
      by_contra hlt
      rcases hr.lt_or_eq with hpos | hzero
      · exact h ⟨hpos, not_le.mp hlt⟩
      · rw [square, ← hzero] at hlt
        omega
    rw [lower, if_neg h]
    refine ⟨.exit ?_, hr, hle⟩
    rw [Option.some_inj, Bool.eq_false_iff, ne_eq, exceeds_iff]
    exact not_lt.mpr hle

/-- The second loop ends, at the last root whose square is not too large. -/
theorem raises_raise (hr : 0 ≤ r.toInt) (hsquare : square r ≤ x.toInt) :
    Raises x r (raise x r) ∧ 0 ≤ (raise x r).toInt ∧ square (raise x r) ≤ x.toInt ∧
      x.toInt < ((raise x r).toInt + 1) * ((raise x r).toInt + 1) := by
  induction r using raise.induct x with
  | case1 r h ih =>
    have hnext := word?_add_one hr hsquare
    have hlt := toInt_lt_of_square_le hsquare
    obtain ⟨hraises, hresult⟩ := ih (by rw [toInt_add_one hr (by omega)]; omega) h
    rw [raise, if_pos h]
    refine ⟨.again ?_ hnext hraises, hresult⟩
    rw [hnext, Option.map_some, Option.some_inj, Bool.not_eq_true', Bool.eq_false_iff, ne_eq,
      exceeds_iff]
    exact not_lt.mpr h
  | case2 r h =>
    have hnext := word?_add_one hr hsquare
    have hlt := toInt_lt_of_square_le hsquare
    have hexceeds : x.toInt < square (r + 1) := not_le.mp h
    rw [raise, if_neg h]
    refine ⟨.exit ?_, hr, hsquare, ?_⟩
    · rw [hnext, Option.map_some, exceeds_iff.mpr hexceeds]
      rfl
    · rwa [square, toInt_add_one hr (by omega)] at hexceeds

/-- Words up to zero have root zero.  For any other word, both loops end without a fault from every
estimate that is not negative, and they end at the floor of the square root. -/
theorem floor_exact (x : Int64) :
    (x ≤ 0 → floor x = 0) ∧
      (0 < x → floor x = correct x x.toFloat.sqrt.toInt64 ∧ ∀ estimate : Int64, 0 ≤ estimate →
        (∀ root, (∃ r, Lowers x estimate r ∧ Raises x r root) ↔ root = correct x estimate) ∧
        0 ≤ (correct x estimate).toInt ∧
        (correct x estimate).toInt * (correct x estimate).toInt ≤ x.toInt ∧
        x.toInt < ((correct x estimate).toInt + 1) * ((correct x estimate).toInt + 1)) := by
  refine ⟨fun hx => if_pos hx, fun hx => ?_⟩
  refine ⟨if_neg (Int64.not_le.mpr hx), fun estimate hestimate => ?_⟩
  obtain ⟨hlowers, hnonneg, hsquare⟩ :=
    lowers_lower (Int64.lt_iff_toInt_lt.mp hx) (Int64.le_iff_toInt_le.mp hestimate)
  obtain ⟨hraises, hroot⟩ := raises_raise hnonneg hsquare
  refine ⟨fun root => ⟨?_, ?_⟩, hroot⟩
  · rintro ⟨r, hr, hrest⟩
    obtain rfl := hr.unique hlowers
    exact hrest.unique hraises
  · rintro rfl
    exact ⟨_, hlowers, hraises⟩

/-- From the greatest estimate, the root of the greatest word: the square after it fits no word. -/
theorem floor_exact_greatest :
    (-1 : Int64) ≤ 0 ∧ floor (-1) = 0 ∧ 0 < Int64.maxValue ∧ (0 : Int64) ≤ 4294967296 ∧
      ∃ r, Lowers Int64.maxValue 4294967296 r ∧ Raises Int64.maxValue r 3037000499 := by
  have hpos : 0 < Int64.maxValue := by decide
  have hestimate : (0 : Int64) ≤ 4294967296 := by decide
  obtain ⟨hends, hnonneg, hle, hlt⟩ :=
    ((floor_exact Int64.maxValue).2 hpos).2 4294967296 hestimate
  have hmax : Int64.maxValue.toInt = 9223372036854775807 := by decide
  rw [hmax] at hle hlt
  have hroot : (correct Int64.maxValue 4294967296).toInt = 3037000499 := by
    apply le_antisymm <;> nlinarith
  have hroot' : 3037000499 = correct Int64.maxValue 4294967296 := Int64.toInt_inj.mp hroot.symm
  exact ⟨by decide, (floor_exact (-1)).1 (by decide), hpos, hestimate, (hends _).mpr hroot'⟩

end SceneFormula.SquareRoot
