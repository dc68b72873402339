import SceneFormula.Json.Numeral
import SceneFormula.Json.Writer
import Mathlib.Tactic

/-!
# Reading written numbers

A whole number that has been written is read as a numeral of its digits, if nothing follows that
would go on with it.  Its value is the number again as long as the number fits into 64 bits.
-/

namespace SceneFormula

namespace Numeral

/-- The numeral that a written number is read as. -/
def ofInt (k : Int) : Numeral := ⟨k < 0, Nat.toDigits 10 k.natAbs, [], none⟩

/-- What comes next does not go on with a number. -/
def Ends (cs : List Char) : Prop :=
  ∀ c ∈ cs.head?, c.isDigit = false ∧ c ≠ '.' ∧ c ≠ 'e' ∧ c ≠ 'E'

theorem ends_nil : Ends [] := by
  simp [Ends]

theorem ends_cons {c : Char} (h : c.isDigit = false ∧ c ≠ '.' ∧ c ≠ 'e' ∧ c ≠ 'E')
    (cs : List Char) : Ends (c :: cs) := by
  simpa [Ends] using h

theorem isDigit_of_mem_toDigits {n : Nat} {c : Char} (h : c ∈ Nat.toDigits 10 n) :
    c.isDigit = true :=
  Nat.isDigit_of_mem_toDigits (by decide) (by decide) h

theorem head?_toDigits_ne_zero {n : Nat} (h : 0 < n) : (Nat.toDigits 10 n).head? ≠ some '0' := by
  induction n using Nat.strong_induction_on with
  | _ n ih =>
    rcases lt_or_ge n 10 with hn | hn
    · rw [Nat.toDigits_of_lt_base hn]
      interval_cases n <;> decide
    · rw [Nat.toDigits_of_base_le (by decide) hn, List.head?_append_of_ne_nil _
        Nat.toDigits_ne_nil]
      exact ih (n / 10) (by omega) (by omega)

theorem digits_append {ds tail : List Char} (hne : ds ≠ []) (hds : ∀ c ∈ ds, c.isDigit = true)
    (ht : Ends tail) : digits (ds ++ tail) = some (ds, tail) := by
  have htake : tail.takeWhile Char.isDigit = [] := by
    cases tail with
    | nil => rfl
    | cons c cs => simp [(ht c rfl).1]
  have hdrop : tail.dropWhile Char.isDigit = tail := by
    cases tail with
    | nil => rfl
    | cons c cs => simp [(ht c rfl).1]
  unfold digits
  rw [List.takeWhile_append_of_pos hds, List.dropWhile_append_of_pos hds, htake, hdrop,
    List.append_nil]
  cases ds with
  | nil => exact absurd rfl hne
  | cons d ds => rfl

theorem readFraction_of_ends {tail : List Char} (ht : Ends tail) :
    readFraction tail = some ([], tail) := by
  unfold readFraction
  split
  next cs => exact absurd rfl (ht '.' rfl).2.1
  next => rfl

theorem readExponent_of_ends {tail : List Char} (ht : Ends tail) :
    readExponent tail = some (none, tail) := by
  cases tail with
  | nil => rfl
  | cons c cs =>
    have hc := ht c rfl
    simp [readExponent, hc.2.2.1, hc.2.2.2]

theorem read_of_sign {negative : Bool} {cs : List Char} {n : Nat} {tail : List Char}
    (hsign : readSign cs = (negative, Nat.toDigits 10 n ++ tail)) (ht : Ends tail) :
    read cs = some (⟨negative, Nat.toDigits 10 n, [], none⟩, tail) := by
  have hzero : ¬((Nat.toDigits 10 n).head? = some '0' ∧ (Nat.toDigits 10 n).length ≠ 1) := by
    rintro ⟨hhead, hlen⟩
    rcases n.eq_zero_or_pos with rfl | hn
    · exact hlen rfl
    · exact head?_toDigits_ne_zero hn hhead
  have hdigits := digits_append Nat.toDigits_ne_nil (fun c => isDigit_of_mem_toDigits (n := n)) ht
  simp only [read, hsign, hdigits, Option.bind_eq_bind, Option.bind_some, if_neg hzero,
    readFraction_of_ends ht, readExponent_of_ends ht, Option.pure_def]

theorem readSign_toDigits (n : Nat) (tail : List Char) :
    readSign (Nat.toDigits 10 n ++ tail) = (false, Nat.toDigits 10 n ++ tail) := by
  unfold readSign
  split
  next cs hcs =>
    have hmem : '-' ∈ (Nat.toDigits 10 n).head? := by
      rw [← List.head?_append_of_ne_nil _ Nat.toDigits_ne_nil, hcs]
      rfl
    exact absurd (isDigit_of_mem_toDigits (List.mem_of_mem_head? hmem)) (by decide)
  next => rfl

theorem read_writeInt (k : Int) {tail : List Char} (ht : Ends tail) :
    read (Json.writeInt k ++ tail) = some (ofInt k, tail) := by
  cases k with
  | ofNat n => exact read_of_sign (readSign_toDigits n tail) ht
  | negSucc n =>
    have hneg : decide (Int.negSucc n < 0) = true := decide_eq_true (Int.negSucc_lt_zero n)
    rw [ofInt, hneg]
    exact read_of_sign (n := n + 1) rfl ht

/-- The value of a written number is the number, if it fits into 64 bits. -/
theorem value?_ofInt {k : Int} (hlo : -9223372036854775808 ≤ k)
    (hhi : k ≤ 18446744073709551615) : (ofInt k).value? = some (.integer k) := by
  have hmag : k.natAbs ≤ maxMagnitude (decide (k < 0)) := by
    unfold maxMagnitude
    split <;> rename_i hk <;> simp only [decide_eq_true_eq] at hk <;> omega
  simp only [value?, ofInt, Nat.ofDigitChars_ten_toDigits, List.isEmpty_nil, Option.isNone_none,
    Bool.and_self, decide_eq_true hmag, if_true, decide_eq_true_eq]
  congr 2
  split <;> omega

end Numeral

end SceneFormula
