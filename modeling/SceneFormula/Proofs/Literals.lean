import SceneFormula.Proofs.Printing
import SceneFormula.Proofs.Simplification

/-!
# Decimal literals

A text can spell integers up to the greatest word, and it spells a negative one by a sign before
the digits.  The sign is an operator, so the digits after it have to fit by themselves: the least
word has no decimal spelling.
-/

namespace SceneFormula

open Lexer (maxInteger)

variable {m : Nat}

/-! ## Tokens -/

namespace Token

theorem hasSpelling_number (hm : m ≤ maxInteger) : (number (Int64.ofNat m)).HasSpelling := by
  have hlt : m < 2 ^ 63 := Nat.lt_succ_of_le hm
  show (0 : Int64) ≤ Int64.ofNat m
  rw [Int64.le_iff_toInt_le, Int64.toInt_ofNat_of_lt hlt]
  exact Int.natCast_nonneg m

theorem spelling_number (hm : m ≤ maxInteger) :
    (number (Int64.ofNat m)).spelling = (toString m).toList := by
  have hlt : m < 2 ^ 63 := Nat.lt_succ_of_le hm
  rw [spelling, Int64.toNatClampNeg_ofNat_of_lt hlt, Nat.toString_eq_ofList_toDigits,
    String.toList_ofList]

end Token

namespace Lexer

theorem lexemes_tooLarge (hm : maxInteger < m) (pos : Nat) :
    lexemes pos (toString m).toList = .error ⟨pos, .integerTooLarge⟩ := by
  have hdigit : ∀ d ∈ Nat.toDigits 10 m, d.isDigit = true :=
    fun d hd => Nat.isDigit_of_mem_toDigits (by decide) (by decide) hd
  have hvalue : Nat.ofDigitChars 10 (Nat.toDigits 10 m) 0 = m := Nat.ofDigitChars_ten_toDigits
  rw [Nat.toString_eq_ofList_toDigits, String.toList_ofList]
  cases hds : Nat.toDigits 10 m with
  | nil => exact absurd hds Nat.toDigits_ne_nil
  | cons c cs =>
    rw [hds] at hdigit hvalue
    have hc := hdigit c List.mem_cons_self
    have hblank : isBlank c = false := isBlank_of_zero_le (zero_le_of_isDigit hc)
    have htake : cs.takeWhile Char.isDigit = cs :=
      List.takeWhile_eq_self_iff.mpr fun d hd => hdigit d (List.mem_cons_of_mem c hd)
    have htoken : token c cs = .error .integerTooLarge := by
      rw [token, if_pos hc, htake]
      exact if_neg (by rwa [hvalue, Nat.not_le])
    rw [lexemes, if_neg (by simp [hblank]), htoken]

theorem lexemes_minus (cs : List Char) (pos : Nat) {e : SyntaxError}
    (h : lexemes (pos + 1) cs = .error e) : lexemes pos ('-' :: cs) = .error e := by
  have htoken : token '-' cs = .ok (.minus, 0) :=
    token_sign rfl (by decide) fun _ _ => rfl
  rw [lexemes, if_neg (by decide), htoken]
  simp only [Nat.add_zero, List.drop_zero, h]

end Lexer

namespace Expr

theorem ofText?_toString (hm : m ≤ maxInteger) :
    ofText? (toString m) = .ok (.number (Int64.ofNat m)) := by
  have hd : Grammar.Derives (.level 10) [.number (Int64.ofNat m)] (.number (Int64.ofNat m)) 1 :=
    (Grammar.Derives.operand (.number _)).loosen (Nat.zero_le 10)
  refine ofText?_of_derives hd (by decide) ?_ ?_
  · exact List.forall_mem_singleton.mpr (Token.hasSpelling_number hm)
  · rw [← Token.spelling_number hm, ← List.append_nil (Token.spelling _)]
    exact .token _ .nil

theorem ofText?_neg_toString (hm : m ≤ maxInteger) :
    ofText? ("-" ++ toString m) =
      .ok (.binary .sub (.number 0) (.number (Int64.ofNat m))) := by
  have hd : Grammar.Derives (.level 10) [.minus, .number (Int64.ofNat m)]
      (.binary .sub (.number 0) (.number (Int64.ofNat m))) 2 :=
    (Grammar.Derives.minus (.operand (.number _))).loosen (Nat.zero_le 10)
  refine ofText?_of_derives hd (by decide) ?_ ?_
  · exact List.forall_mem_cons.mpr
      ⟨trivial, List.forall_mem_singleton.mpr (Token.hasSpelling_number hm)⟩
  · rw [String.toList_append, ← Token.spelling_number hm, ← List.append_nil (Token.spelling _)]
    exact .token .minus (.token _ .nil)

theorem ofText?_toString_of_lt (hm : maxInteger < m) :
    ofText? (toString m) = .error ⟨0, .integerTooLarge⟩ := by
  rw [ofText?, Lexeme.ofText?, Lexer.lexemes_tooLarge hm]

/-- The sign is read, and the digits after it are too many. -/
theorem ofText?_neg_toString_of_lt (hm : maxInteger < m) :
    ofText? ("-" ++ toString m) = .error ⟨1, .integerTooLarge⟩ := by
  have hlex : Lexeme.ofText? ("-" ++ toString m) = .error ⟨1, .integerTooLarge⟩ := by
    rw [Lexeme.ofText?, String.toList_append]
    exact Lexer.lexemes_minus _ 0 (Lexer.lexemes_tooLarge hm 1)
  rw [ofText?, hlex]

/-- An integer whose digits fit can be read from its decimal spelling, and folding leaves it. -/
theorem exists_ofText?_toString {k : Int} (hk : k.natAbs ≤ maxInteger) :
    ∃ e, ofText? (toString k) = .ok e ∧ e.fold = .number (Int64.ofInt k) := by
  cases k with
  | ofNat m => exact ⟨_, ofText?_toString hk, rfl⟩
  | negSucc m =>
    refine ⟨_, ofText?_neg_toString hk, ?_⟩
    have hneg : (0 : Int64) - Int64.ofNat (m + 1) = Int64.ofInt (Int.negSucc m) := by
      rw [Int64.zero_sub, ← Int64.ofInt_eq_ofNat, ← Int64.ofInt_neg]
      rfl
    rw [← hneg]
    rfl

/-- The fault is at the first digit. -/
theorem ofText?_toString_int_of_lt {k : Int} (hk : maxInteger < k.natAbs) :
    ofText? (toString k) = .error ⟨if k < 0 then 1 else 0, .integerTooLarge⟩ := by
  cases k with
  | ofNat m =>
    have hsign : ¬ Int.ofNat m < 0 := Int.not_lt.mpr (Int.natCast_nonneg m)
    rw [if_neg hsign]
    exact ofText?_toString_of_lt hk
  | negSucc m =>
    rw [if_pos (Int.negSucc_lt_zero m)]
    exact ofText?_neg_toString_of_lt hk

end Expr

/-! ## Words -/

theorem natAbs_toInt_le_iff (n : Int64) : n.toInt.natAbs ≤ maxInteger ↔ n ≠ Int64.minValue := by
  have hle := n.le_toInt
  have hlt := n.toInt_lt
  have hmin : n = Int64.minValue ↔ n.toInt = -9223372036854775808 := Int64.toInt_inj.symm
  rw [Ne, hmin, maxInteger]
  omega

namespace Formula

theorem simplify_text_of_error {source : String} {fault : SyntaxError}
    (h : Expr.ofText? source = .error fault) : (text source).simplify = number 0 := by
  rw [simplify, complete, Expr.ofText, h]
  rfl

theorem ofText?_toString_minValue :
    Expr.ofText? (toString Int64.minValue) = .error ⟨1, .integerTooLarge⟩ :=
  Expr.ofText?_toString_int_of_lt (k := Int64.minValue.toInt) (by decide)

/-- Every word but the least one can be read from its decimal spelling, and a text with that
spelling is simplified to the word. -/
theorem simplify_text_toString (n : Int64) :
    ((∃ e, Expr.ofText? (toString n) = .ok e) ↔ n ≠ Int64.minValue) ∧
      ((text (toString n)).simplify = number n ↔ n ≠ Int64.minValue) := by
  by_cases hmin : n = Int64.minValue
  · subst hmin
    have herror := ofText?_toString_minValue
    have hread : ¬ ∃ e, Expr.ofText? (toString Int64.minValue) = .ok e := by
      rintro ⟨e, he⟩
      cases herror.symm.trans he
    have hsimplify : (text (toString Int64.minValue)).simplify ≠ number Int64.minValue := by
      rw [simplify_text_of_error herror]
      decide
    exact ⟨iff_of_false hread (not_not.mpr rfl), iff_of_false hsimplify (not_not.mpr rfl)⟩
  · obtain ⟨e, hread, hfold⟩ := Expr.exists_ofText?_toString ((natAbs_toInt_le_iff n).mpr hmin)
    rw [Int64.ofInt_toInt] at hfold
    have hsimplify : (text (toString n)).simplify = number n := by
      rw [simplify, complete, Expr.ofText, show toString n = toString n.toInt from rfl, hread]
      exact congrArg Expr.toFormula hfold
    exact ⟨iff_of_true ⟨e, hread⟩ hmin, iff_of_true hsimplify hmin⟩

/-- The least word has no spelling: the digits after its sign are too many by themselves, and a
text with these characters counts as zero. -/
theorem simplify_text_least_word :
    toString Int64.minValue = "-9223372036854775808" ∧
      Expr.ofText? "-9223372036854775808" = .error ⟨1, .integerTooLarge⟩ ∧
      (text "-9223372036854775808").simplify = number 0 ∧
      ¬ ∀ n : Int64, (text (toString n)).simplify = number n ∧
        ∃ e, Expr.ofText? (toString n) = .ok e := by
  have hspelling : toString Int64.minValue = "-9223372036854775808" := by decide
  have herror := ofText?_toString_minValue
  refine ⟨hspelling, hspelling ▸ herror, hspelling ▸ simplify_text_of_error herror, fun hall => ?_⟩
  obtain ⟨e, he⟩ := (hall Int64.minValue).2
  cases herror.symm.trans he

end Formula

end SceneFormula
