import SceneFormula.Arithmetic
import Mathlib

/-!
# Arithmetic against the integers

What the operators on words give, told in terms of exact integers.  Sums, differences, products and
quotients are reduced modulo `2 ^ 64`.  The operators on bits see their operands modulo `2 ^ 32` and
the counts of shifts modulo 32, and their results are signed numbers of 32 bits.
-/

namespace SceneFormula

variable {a b a' b' : Int64}

/-! ### Residues of words -/

theorem bmod_eq_bmod_iff_modEq {x y : Int} {m : Nat} :
    x.bmod m = y.bmod m ↔ x ≡ y [ZMOD m] := by
  constructor
  · intro h
    rw [Int.ModEq, ← Int.bmod_emod, h, Int.bmod_emod]
  · intro h
    rw [← Int.emod_bmod x, h.eq, Int.emod_bmod]

theorem toInt_modEq_iff {n : Int64} {k : Int} :
    n.toInt ≡ k [ZMOD 2 ^ 64] ↔ n.toInt = k.bmod (2 ^ 64) := by
  have hn : n.toInt.bmod (2 ^ 64) = n.toInt := n.toInt_bmod_size
  rw [← hn, bmod_eq_bmod_iff_modEq, hn]
  norm_cast

/-- A word that wraps around is the one word in the residue class of the exact integer. -/
theorem some_eq_some_iff_modEq {m n : Int64} {k : Int} (hm : m.toInt = k.bmod (2 ^ 64)) :
    some m = some n ↔ n.toInt ≡ k [ZMOD 2 ^ 64] := by
  rw [toInt_modEq_iff, ← hm, Option.some_inj, Int64.toInt_inj, eq_comm]

theorem toInt_low (a : Int64) : (low a).toInt = a.toInt.bmod (2 ^ 32) := a.toInt_toInt32

theorem low_eq_low_iff : low a = low b ↔ a.toInt ≡ b.toInt [ZMOD 2 ^ 32] := by
  rw [← Int32.toInt_inj, toInt_low, toInt_low, bmod_eq_bmod_iff_modEq]
  norm_cast

theorem getLsbD_low (a : Int64) {i : Nat} (hi : i < 32) :
    (low a).toBitVec.getLsbD i = a.toBitVec.getLsbD i := by
  rw [low, Int64.toBitVec_toInt32, BitVec.getLsbD_signExtend]
  simp [hi, hi.trans (show 32 < 64 by decide)]

theorem getLsbD_toInt64 (x : Int32) {i : Nat} (hi : i < 32) :
    x.toInt64.toBitVec.getLsbD i = x.toBitVec.getLsbD i := by
  rw [Int32.toBitVec_toInt64, BitVec.getLsbD_signExtend]
  simp [hi, hi.trans (show 32 < 64 by decide)]

/-! ### Division -/

theorem toInt_div_eq_iff : (a / b).toInt = a.toInt.tdiv b.toInt ↔
    ¬(a = Int64.minValue ∧ b = -1) := by
  constructor
  · rintro h ⟨rfl, rfl⟩
    exact absurd h (by decide)
  · intro h
    by_cases ha : a = Int64.minValue
    · exact Int64.toInt_div_of_ne_right a b fun hb => h ⟨ha, hb⟩
    · exact Int64.toInt_div_of_ne_left a b ha

theorem rem_eq_zero_or_sign_eq (a b : Int64) :
    a % b = 0 ∨ (a % b).toInt.sign = a.toInt.sign := by
  rw [← Int64.toInt_inj, Int64.toInt_zero, Int64.toInt_mod, Int.sign_tmod]
  split
  next h => exact .inl (Int.tmod_eq_zero_of_dvd h)
  next => exact .inr rfl

theorem abs_rem_lt (a : Int64) (hb : b ≠ 0) : |(a % b).toInt| < |b.toInt| := by
  have hzero : b.toInt ≠ 0 := fun h => hb (Int64.toInt_inj.mp h)
  rw [Int64.toInt_mod, Int.abs_eq_natAbs, Int.abs_eq_natAbs, Int.natAbs_tmod, Nat.cast_lt]
  exact Nat.mod_lt _ (Int.natAbs_pos.mpr hzero)

theorem div_mul_add_rem (a b : Int64) : a / b * b + a % b = a := by
  rw [← Int64.toInt_inj, Int64.toInt_add, Int64.toInt_mul, Int64.toInt_div, Int64.toInt_mod,
    Int.bmod_mul_bmod, Int.bmod_add_bmod, Int.tdiv_mul_add_tmod]
  exact a.toInt_bmod_size

/-! ### Bits -/

def BinaryOp.shifts : List BinaryOp := [.shiftLeft, .shiftRight]

/-- The operators that see the low 32 bits of their operands. -/
def BinaryOp.onBits : List BinaryOp := [.bitAnd, .bitOr, .bitXor] ++ shifts

/-- What an operator does to each bit by itself. -/
def BinaryOp.bitwise? : BinaryOp → Option (Bool → Bool → Bool)
  | .bitAnd => some Bool.and
  | .bitOr => some Bool.or
  | .bitXor => some Bool.xor
  | _ => none

theorem exists_result?_low {op : BinaryOp} (hop : op ∈ BinaryOp.onBits) :
    ∃ f : Int32 → Int32 → Int32, ∀ a b, op.result? a b = some (f (low a) (low b)).toInt64 := by
  simp only [BinaryOp.onBits, BinaryOp.shifts, List.cons_append, List.nil_append, List.mem_cons,
    List.not_mem_nil, or_false] at hop
  rcases hop with rfl | rfl | rfl | rfl | rfl <;> exact ⟨_, fun _ _ => rfl⟩

theorem result?_congr {op : BinaryOp} (hop : op ∈ BinaryOp.onBits)
    (ha : a'.toInt ≡ a.toInt [ZMOD 2 ^ 32]) (hb : b'.toInt ≡ b.toInt [ZMOD 2 ^ 32]) :
    op.result? a' b' = op.result? a b := by
  obtain ⟨f, hf⟩ := exists_result?_low hop
  rw [hf, hf, low_eq_low_iff.mpr ha, low_eq_low_iff.mpr hb]

theorem toInt64_mem_range (x : Int32) : -2 ^ 31 ≤ x.toInt64.toInt ∧ x.toInt64.toInt < 2 ^ 31 := by
  rw [Int32.toInt_toInt64]
  exact ⟨x.le_toInt, x.toInt_lt⟩

theorem getLsbD_result? {op : BinaryOp} {f : Bool → Bool → Bool} (hop : op.bitwise? = some f)
    (a b : Int64) : ∃ n, op.result? a b = some n ∧
      ∀ i < 32, n.toBitVec.getLsbD i = f (a.toBitVec.getLsbD i) (b.toBitVec.getLsbD i) := by
  cases op <;> cases hop <;> refine ⟨_, rfl, fun i hi => ?_⟩ <;>
    rw [getLsbD_toInt64 _ hi, ← getLsbD_low a hi, ← getLsbD_low b hi]
  · rw [Int32.toBitVec_and, BitVec.getLsbD_and]
  · rw [Int32.toBitVec_or, BitVec.getLsbD_or]
  · rw [Int32.toBitVec_xor, BitVec.getLsbD_xor]

/-- The count of a shift is reduced modulo 32, also below zero. -/
theorem toNat_count (b : Int64) :
    ((low b).toBitVec.smod 32).toNat = (b.toInt % 32).toNat := by
  have hdvd : (32 : Int) ∣ ((2 ^ 32 : Nat) : Int) := by decide
  have hcount : ((low b).toBitVec.smod 32).toInt = b.toInt % 32 := by
    calc ((low b).toBitVec.smod 32).toInt = (b.toInt.bmod (2 ^ 32)).fmod 32 := by
          rw [BitVec.toInt_smod, Int32.toInt_toBitVec, toInt_low]
          rfl
      _ = b.toInt.bmod (2 ^ 32) % ((2 ^ 32 : Nat) : Int) % 32 := by
          rw [Int.fmod_eq_emod_of_nonneg _ (by decide), Int.emod_emod_of_dvd _ hdvd]
      _ = b.toInt % 32 := by rw [Int.bmod_emod, Int.emod_emod_of_dvd _ hdvd]
  have hnonneg : 0 ≤ b.toInt % 32 := Int.emod_nonneg _ (by decide)
  rw [← hcount] at hnonneg ⊢
  have hcond := BitVec.toInt_eq_toNat_cond ((low b).toBitVec.smod 32)
  have hlt := ((low b).toBitVec.smod 32).isLt
  split at hcond <;> omega

theorem shift_congr {op : BinaryOp} (hop : op ∈ BinaryOp.shifts)
    (ha : a'.toInt ≡ a.toInt [ZMOD 2 ^ 32]) (hb : b'.toInt ≡ b.toInt [ZMOD 32]) :
    op.result? a' b' = op.result? a b := by
  have hlow : low a' = low a := low_eq_low_iff.mpr ha
  have hcount : ((low b').toBitVec.smod 32).toNat = ((low b).toBitVec.smod 32).toNat := by
    rw [toNat_count, toNat_count, hb.eq]
  simp only [BinaryOp.shifts, List.mem_cons, List.not_mem_nil, or_false] at hop
  rcases hop with rfl | rfl
  · have hshift : low a' <<< low b' = low a <<< low b := by
      rw [← Int32.toBitVec_inj, Int32.toBitVec_shiftLeft, Int32.toBitVec_shiftLeft,
        BitVec.shiftLeft_eq', BitVec.shiftLeft_eq', hcount, hlow]
    exact congrArg (fun x => some x.toInt64) hshift
  · have hshift : low a' >>> low b' = low a >>> low b := by
      rw [← Int32.toBitVec_inj, Int32.toBitVec_shiftRight, Int32.toBitVec_shiftRight,
        BitVec.sshiftRight_eq', BitVec.sshiftRight_eq', hcount, hlow]
    exact congrArg (fun x => some x.toInt64) hshift

theorem toInt_shiftLeft_modEq (a b : Int64) :
    (low a <<< low b).toInt64.toInt ≡ a.toInt * 2 ^ (b.toInt % 32).toNat [ZMOD 2 ^ 32] := by
  have hbmod : (low a <<< low b).toInt64.toInt.bmod (2 ^ 32) =
      (a.toInt * 2 ^ (b.toInt % 32).toNat).bmod (2 ^ 32) := by
    rw [Int32.toInt_toInt64, ← Int32.toInt_toBitVec, Int32.toBitVec_shiftLeft,
      BitVec.shiftLeft_eq', BitVec.toInt_shiftLeft, toNat_count, Nat.shiftLeft_eq, Int.bmod_bmod,
      Nat.cast_mul, ← Int.bmod_mul_bmod, ← BitVec.toInt_eq_toNat_bmod, Int32.toInt_toBitVec,
      toInt_low, Int.bmod_mul_bmod, Nat.cast_pow]
    rfl
  have h := bmod_eq_bmod_iff_modEq.mp hbmod
  exact_mod_cast h

theorem toInt_shiftRight (a b : Int64) :
    (low a >>> low b).toInt64.toInt = a.toInt.bmod (2 ^ 32) / 2 ^ (b.toInt % 32).toNat := by
  rw [Int32.toInt_toInt64, ← Int32.toInt_toBitVec, Int32.toBitVec_shiftRight,
    BitVec.toInt_sshiftRight', toNat_count, Int32.toInt_toBitVec, toInt_low,
    Int.shiftRight_eq_div_pow]
  norm_cast

theorem toInt_complement (a : Int64) :
    (~~~low a).toInt64.toInt = -1 - a.toInt.bmod (2 ^ 32) := by
  have hle := (low a).le_toInt
  have hlt := (low a).toInt_lt
  rw [Int32.toInt_toInt64, Int32.toInt_not, ← toInt_low,
    Int.bmod_eq_of_le (by omega) (by omega)]
  omega

/-! ### All operators -/

theorem abs_result? (a : Int64) : ∃ n, UnaryOp.abs.result? a = some n ∧
    (a ≠ Int64.minValue → n.toInt = |a.toInt|) ∧ (a = Int64.minValue → n = a) := by
  refine ⟨_, rfl, fun ha => ?_, ?_⟩
  · have hle := a.le_toInt
    have hlt := a.toInt_lt
    have hne : a.toInt ≠ -2 ^ 63 := fun h => ha (Int64.toInt_inj.mp h)
    split
    next hneg =>
      have hneg' : a.toInt < 0 := Int64.lt_iff_toInt_lt.mp hneg
      rw [Int64.toInt_neg, abs_of_neg hneg']
      exact Int.bmod_eq_of_le (by omega) (by omega)
    next hnonneg =>
      have hnonneg' : 0 ≤ a.toInt := Int64.le_iff_toInt_le.mp (Int64.not_lt.mp hnonneg)
      rw [abs_of_nonneg hnonneg']
  · rintro rfl
    rfl

/-- The operators on `a` and `b` against exact integers. -/
structure MatchesIntegers (a b : Int64) : Prop where
  none_iff (op : BinaryOp) : op.result? a b = none ↔ (op = .div ∨ op = .rem) ∧ b = 0
  add (n : Int64) :
    BinaryOp.add.result? a b = some n ↔ n.toInt ≡ a.toInt + b.toInt [ZMOD 2 ^ 64]
  sub (n : Int64) :
    BinaryOp.sub.result? a b = some n ↔ n.toInt ≡ a.toInt - b.toInt [ZMOD 2 ^ 64]
  mul (n : Int64) :
    BinaryOp.mul.result? a b = some n ↔ n.toInt ≡ a.toInt * b.toInt [ZMOD 2 ^ 64]
  /-- The quotient is truncated toward zero, and only one quotient does not fit. -/
  div_rem (hb : b ≠ 0) : ∃ q r,
    BinaryOp.div.result? a b = some q ∧ BinaryOp.rem.result? a b = some r ∧
      q.toInt ≡ a.toInt.tdiv b.toInt [ZMOD 2 ^ 64] ∧
      (q.toInt = a.toInt.tdiv b.toInt ↔ ¬(a = Int64.minValue ∧ b = -1)) ∧
      (r = 0 ∨ r.toInt.sign = a.toInt.sign) ∧ |r.toInt| < |b.toInt| ∧ q * b + r = a
  onBits_congr (op : BinaryOp) (hop : op ∈ BinaryOp.onBits) (a' b' : Int64)
    (ha : a'.toInt ≡ a.toInt [ZMOD 2 ^ 32]) (hb : b'.toInt ≡ b.toInt [ZMOD 2 ^ 32]) :
    op.result? a' b' = op.result? a b
  /-- Of the count of a shift, which may be negative, only the residue modulo 32 matters. -/
  shifts_congr (op : BinaryOp) (hop : op ∈ BinaryOp.shifts) (a' b' : Int64)
    (ha : a'.toInt ≡ a.toInt [ZMOD 2 ^ 32]) (hb : b'.toInt ≡ b.toInt [ZMOD 32]) :
    op.result? a' b' = op.result? a b
  onBits_range (op : BinaryOp) (hop : op ∈ BinaryOp.onBits) :
    ∃ n, op.result? a b = some n ∧ -2 ^ 31 ≤ n.toInt ∧ n.toInt < 2 ^ 31
  bitwise (op : BinaryOp) (f : Bool → Bool → Bool) (hop : op.bitwise? = some f) :
    ∃ n, op.result? a b = some n ∧
      ∀ i < 32, n.toBitVec.getLsbD i = f (a.toBitVec.getLsbD i) (b.toBitVec.getLsbD i)
  shiftLeft : ∃ n, BinaryOp.shiftLeft.result? a b = some n ∧
    n.toInt ≡ a.toInt * 2 ^ (b.toInt % 32).toNat [ZMOD 2 ^ 32]
  /-- The quotient of integers is rounded down here. -/
  shiftRight : ∃ n, BinaryOp.shiftRight.result? a b = some n ∧
    n.toInt = a.toInt.bmod (2 ^ 32) / 2 ^ (b.toInt % 32).toNat
  complement : ∃ n, UnaryOp.complement.result? a = some n ∧
    n.toInt = -1 - a.toInt.bmod (2 ^ 32) ∧ -2 ^ 31 ≤ n.toInt ∧ n.toInt < 2 ^ 31
  complement_congr (a' : Int64) (ha : a'.toInt ≡ a.toInt [ZMOD 2 ^ 32]) :
    UnaryOp.complement.result? a' = UnaryOp.complement.result? a
  abs : ∃ n, UnaryOp.abs.result? a = some n ∧
    (a ≠ Int64.minValue → n.toInt = |a.toInt|) ∧ (a = Int64.minValue → n = a)

/-- Every operator has a result on all words but for divisions by zero, and the result is the one
that exact integers give, reduced to the words of the operator. -/
theorem matchesIntegers (a b : Int64) : MatchesIntegers a b where
  none_iff _ := BinaryOp.result?_eq_none_iff
  add _ := some_eq_some_iff_modEq (a.toInt_add b)
  sub _ := some_eq_some_iff_modEq (a.toInt_sub b)
  mul _ := some_eq_some_iff_modEq (a.toInt_mul b)
  div_rem hb := ⟨a / b, a % b, if_neg hb, if_neg hb, toInt_modEq_iff.mpr (a.toInt_div b),
    toInt_div_eq_iff, rem_eq_zero_or_sign_eq a b, abs_rem_lt a hb, div_mul_add_rem a b⟩
  onBits_congr _ hop _ _ := result?_congr hop
  shifts_congr _ hop _ _ := shift_congr hop
  onBits_range _ hop := by
    obtain ⟨f, hf⟩ := exists_result?_low hop
    exact ⟨_, hf a b, toInt64_mem_range _⟩
  bitwise _ _ hop := getLsbD_result? hop a b
  shiftLeft := ⟨_, rfl, toInt_shiftLeft_modEq a b⟩
  shiftRight := ⟨_, rfl, toInt_shiftRight a b⟩
  complement := ⟨_, rfl, toInt_complement a, toInt64_mem_range _⟩
  complement_congr a' ha := by
    rw [UnaryOp.result?, UnaryOp.result?, low_eq_low_iff.mpr ha]
  abs := abs_result? a

/-- The one quotient that wraps around, and a shift by a negative count. -/
theorem matchesIntegers_least :
    (-1 : Int64) ≠ 0 ∧
      (∃ q r, BinaryOp.div.result? Int64.minValue (-1) = some q ∧
        BinaryOp.rem.result? Int64.minValue (-1) = some r ∧
        q.toInt ≠ Int64.minValue.toInt.tdiv (-1) ∧ q * -1 + r = Int64.minValue) ∧
      (31 : Int64).toInt ≡ (-1 : Int64).toInt [ZMOD 32] ∧
      BinaryOp.shiftRight.result? Int64.minValue 31 =
        BinaryOp.shiftRight.result? Int64.minValue (-1) := by
  have hne : (-1 : Int64) ≠ 0 := by decide
  have hcount : (31 : Int64).toInt ≡ (-1 : Int64).toInt [ZMOD 32] := by decide
  obtain ⟨q, r, hq, hr, -, hwraps, -, -, hback⟩ :=
    (matchesIntegers Int64.minValue (-1)).div_rem hne
  refine ⟨hne, ⟨q, r, hq, hr, fun h => hwraps.mp h ⟨rfl, rfl⟩, hback⟩, hcount, ?_⟩
  exact (matchesIntegers Int64.minValue (-1)).shifts_congr .shiftRight (by decide) Int64.minValue
    31 (Int.ModEq.refl _) hcount

end SceneFormula
