import SceneFormula.Proofs.Printing
import SceneFormula.Proofs.Simplification
import Mathlib

/-!
# Storing converted texts

A text is converted by simplifying it, and the result may be too high to be had back once it is
stored.  What bounds the height is the number of operators in the text, and not how deeply they are
nested: operators that follow one another without parentheses raise the formula by one node each.
With 126 operators every text can be stored, and with 127 a plain sum is lost.
-/

namespace SceneFormula

/-- The token stands for an operator between operands, before one, or written as a call. -/
def Token.isOperator : Token → Bool
  | .ident _ => true
  | t => t.binary?.isSome || t.unary?.isSome

theorem Token.isOperator_of_binary? {t : Token} {k : Nat} {op : BinaryOp}
    (h : t.binary? = some (k, op)) : t.isOperator = true := by
  cases t with
  | ident name => rfl
  | _ => simp only [isOperator, h, Option.isSome_some, Bool.true_or]

/-! ### Heights -/

namespace Expr

def height : Expr → Nat
  | binary _ l r => max l.height r.height + 1
  | unary _ x => x.height + 1
  | _ => 1

theorem height_toFormula (e : Expr) : e.toFormula.height = e.height := by
  induction e with
  | binary op l r ihl ihr =>
    simp only [toFormula, Formula.height, Formula.heightOperand, ihl, ihr, height]
  | unary op x ih => simp only [toFormula, Formula.height, Formula.heightOperand, ih, height]
  | _ => rfl

theorem height_pos (e : Expr) : 0 < e.height := by
  cases e <;> exact Nat.succ_pos _

theorem height_fold_le (e : Expr) : e.fold.height ≤ e.height := by
  induction e with
  | binary op l r ihl ihr =>
    rw [fold]
    rcases foldBinary_cases op l.fold r.fold with h | ⟨a, b, n, -, -, -, h⟩
    · rw [h]
      exact Nat.succ_le_succ (max_le_max ihl ihr)
    · rw [h]
      exact (binary op l r).height_pos
  | unary op x ih =>
    rw [fold]
    rcases foldUnary_cases op x.fold with h | ⟨a, n, -, -, h⟩
    · rw [h]
      exact Nat.succ_le_succ ih
    · rw [h]
      exact (unary op x).height_pos
  | _ => exact Nat.le_refl _

end Expr

namespace Grammar

/-- Every node of an expression, its leaves apart, is one of the operators that spell it. -/
theorem Derives.height_le {p : Phrase} {ts : List Token} {e : Expr} {c : Nat}
    (h : Derives p ts e c) : e.height ≤ ts.countP Token.isOperator + 1 := by
  induction h with
  | number | yes | no | reference => exact Nat.succ_le_succ (Nat.zero_le _)
  | operand _ ih | tighter _ ih => exact ih
  | parenthesised _ ih =>
    rw [List.cons_append, List.countP_cons_of_neg (by decide), List.countP_append]
    omega
  | unaryCall _ _ ih =>
    rw [List.cons_append, List.countP_cons_of_pos rfl, List.cons_append,
      List.countP_cons_of_neg (by decide), List.countP_append, Expr.height]
    omega
  | binaryCall _ _ _ iha ihb =>
    simp only [List.cons_append, List.append_assoc]
    rw [List.countP_cons_of_pos rfl, List.countP_cons_of_neg (by decide), List.countP_append,
      List.countP_cons_of_neg (by decide), List.countP_append, Expr.height]
    omega
  | @minus ts e c _ ih =>
    have hpos := e.height_pos
    rw [List.countP_cons_of_pos rfl]
    simp only [Expr.height]
    omega
  | bang _ ih | tilde _ ih =>
    rw [List.countP_cons_of_pos rfl, Expr.height]
    omega
  | between hrow hop _ _ ihl ihr =>
    have hbinary := binary?_eq_some_iff.mpr ⟨_, hrow, hop⟩
    rw [List.countP_append, List.countP_cons_of_pos (Token.isOperator_of_binary? hbinary),
      Expr.height]
    omega

end Grammar

/-! ### Texts with few operators -/

namespace Formula

variable {source : String}

theorem height_simplify_text_le (source : String) :
    (text source).simplify.height ≤ (Expr.ofText source).height := by
  rw [simplify, Expr.height_toFormula]
  exact (Expr.ofText source).height_fold_le

theorem height_ofText_of_error {fault : SyntaxError} (h : Expr.ofText? source = .error fault) :
    (Expr.ofText source).height = 1 := by
  -- The text stands for a zero.
  rw [Expr.ofText, h]
  rfl

theorem height_ofText_le {lexemes : List Lexeme} (hlex : Lexeme.ofText? source = .ok lexemes) :
    (Expr.ofText source).height ≤ lexemes.countP (·.token.isOperator) + 1 := by
  cases h : Expr.ofText? source with
  | error fault =>
    rw [height_ofText_of_error h]
    exact Nat.succ_le_succ (Nat.zero_le _)
  | ok e =>
    obtain ⟨c, -, hd⟩ := Parser.parse_eq_ok_iff.mp ((Expr.ofText?_eq_ok_iff hlex).mp h)
    have hheight := hd.height_le
    rw [List.countP_map] at hheight
    rw [Expr.ofText, h]
    exact hheight

end Formula

/-! ### Sums -/

/-- A variable to which it is added `n` times. -/
def repeatedSum : Nat → Expr
  | 0 => .var "0"
  | n + 1 => .binary .add (repeatedSum n) (.var "0")

def repeatedSumTokens (n : Nat) : List Token :=
  .reference "0" :: (List.replicate n [.plus, .reference "0"]).flatten

def repeatedSumText (n : Nat) : String :=
  String.ofList ('$' :: '0' :: '$' :: (List.replicate n ['+', '$', '0', '$']).flatten)

theorem height_repeatedSum (n : Nat) : (repeatedSum n).height = n + 1 := by
  induction n with
  | zero => rfl
  | succ n ih =>
    rw [repeatedSum, Expr.height, ih]
    exact congrArg Nat.succ (max_eq_left (Nat.le_add_left 1 n))

theorem fold_repeatedSum (n : Nat) : (repeatedSum n).fold = repeatedSum n := by
  have hconstant (n : Nat) : (repeatedSum n).constant? = none := by
    cases n <;> rfl
  induction n with
  | zero => rfl
  | succ n ih => simp only [repeatedSum, Expr.fold, ih, Expr.foldBinary, hconstant]

theorem derives_repeatedSum (n : Nat) :
    Grammar.Derives (.level 10) (repeatedSumTokens n) (repeatedSum n) 1 := by
  have hvar : Grammar.Derives (.level 1) [.reference "0"] (.var "0") 1 :=
    .tighter (.operand (.reference "0"))
  have hsum : Grammar.Derives (.level 2) (repeatedSumTokens n) (repeatedSum n) 1 := by
    induction n with
    | zero => exact .tighter hvar
    | succ n ih =>
      have htokens : repeatedSumTokens (n + 1) =
          repeatedSumTokens n ++ .plus :: [.reference "0"] := by
        rw [repeatedSumTokens, List.replicate_succ', List.flatten_append]
        rfl
      rw [htokens]
      exact .between rfl (by decide : (Token.plus, BinaryOp.add) ∈ _) ih hvar
  exact hsum.loosen (by decide)

theorem hasSpelling_of_mem_repeatedSumTokens (n : Nat) :
    ∀ t ∈ repeatedSumTokens n, t.HasSpelling := by
  have hid : (Token.reference "0").HasSpelling := .numeral rfl fun _ => rfl
  intro t ht
  simp only [repeatedSumTokens, List.mem_cons, List.mem_flatten, List.mem_replicate] at ht
  rcases ht with rfl | ⟨ts, ⟨-, rfl⟩, ht⟩
  · exact hid
  · rcases List.mem_pair.mp ht with rfl | rfl
    · trivial
    · exact hid

theorem spells_repeatedSum (n : Nat) : Spells (repeatedSumTokens n) (repeatedSumText n).toList := by
  have hsigns : (List.replicate n ['+', '$', '0', '$']).flatten =
      (List.replicate n [Token.plus, .reference "0"]).flatten.flatMap Token.spelling := by
    induction n with
    | zero => rfl
    | succ n ih =>
      rw [List.replicate_succ, List.replicate_succ, List.flatten_cons, List.flatten_cons,
        List.flatMap_append, ih]
      rfl
  rw [repeatedSumText, String.toList_ofList, hsigns]
  exact spells_flatMap_spelling (repeatedSumTokens n)

theorem ofText_repeatedSum (n : Nat) : Expr.ofText (repeatedSumText n) = repeatedSum n := by
  rw [Expr.ofText, Expr.ofText?_of_derives (derives_repeatedSum n) (by decide)
    (hasSpelling_of_mem_repeatedSumTokens n) (spells_repeatedSum n)]

namespace Formula

theorem height_simplify_repeatedSum (n : Nat) :
    (text (repeatedSumText n)).simplify.height = n + 1 := by
  rw [simplify, complete, ofText_repeatedSum, fold_repeatedSum, Expr.height_toFormula,
    height_repeatedSum]

/-! ### Having a converted text back -/

theorem height_simplify_text_le_of_countP {source : String}
    (h : ∀ lexemes, Lexeme.ofText? source = .ok lexemes →
      lexemes.countP (·.token.isOperator) ≤ 126) :
    (text source).simplify.height ≤ 127 := by
  refine (height_simplify_text_le source).trans ?_
  cases hlex : Lexeme.ofText? source with
  | error fault =>
    have hread : Expr.ofText? source = .error fault := by
      rw [Expr.ofText?, hlex]
    rw [height_ofText_of_error hread]
    decide
  | ok lexemes => exact (height_ofText_le hlex).trans (Nat.succ_le_succ (h lexemes hlex))

/-- What a text converts to is had back from its stored form just if no path in it has more than 127
nodes; otherwise the stored form is malformed.  With at most 126 operators in the text it always is
had back, and a sum with more than 126 signs never is. -/
theorem ofStored_simplify_text (layout : Layout) :
    (∀ source, (ofStored (String.ofList ((text source).simplify.toJson.write layout [])) =
          .ok (text source).simplify ↔ (text source).simplify.height ≤ 127) ∧
        (127 < (text source).simplify.height →
          ofStored (String.ofList ((text source).simplify.toJson.write layout [])) =
            .error .malformed) ∧
        ((∀ lexemes, Lexeme.ofText? source = .ok lexemes →
            lexemes.countP (·.token.isOperator) ≤ 126) →
          ofStored (String.ofList ((text source).simplify.toJson.write layout [])) =
            .ok (text source).simplify)) ∧
      ∀ n, ofStored (String.ofList ((text (repeatedSumText n)).simplify.toJson.write layout [])) =
          .ok (text (repeatedSumText n)).simplify ↔ n ≤ 126 := by
  refine ⟨fun source => ⟨ofStored_write_eq_ok_iff, fun h => ofStored_write_of_lt_height h layout,
    fun h => ?_⟩, fun n => ?_⟩
  · exact ofStored_write_of_height_le (height_simplify_text_le_of_countP h) layout
  · rw [ofStored_write_eq_ok_iff, height_simplify_repeatedSum]
    exact Nat.succ_le_succ_iff

theorem ofStored_simplify_text_product_and_sum :
    ((∀ lexemes, Lexeme.ofText? "2*$0$" = .ok lexemes →
        lexemes.countP (·.token.isOperator) ≤ 126) ∧
      ofStored (text "2*$0$").simplify.toJson.compact = .ok (text "2*$0$").simplify) ∧
    127 < (text (repeatedSumText 500)).simplify.height ∧
      ofStored (text (repeatedSumText 500)).simplify.toJson.compact = .error .malformed := by
  have hfew : ∀ lexemes, Lexeme.ofText? "2*$0$" = .ok lexemes →
      lexemes.countP (·.token.isOperator) ≤ 126 := by
    intro lexemes h
    have hlex : Lexeme.ofText? "2*$0$" =
        .ok [⟨.number 2, 0, 1⟩, ⟨.star, 1, 2⟩, ⟨.reference "0", 2, 5⟩] := by
      cbv
    rw [hlex] at h
    obtain rfl := Except.ok.inj h
    decide
  have hhigh : 127 < (text (repeatedSumText 500)).simplify.height := by
    rw [height_simplify_repeatedSum]
    decide
  have hproduct := ((ofStored_simplify_text .compact).1 "2*$0$").2.2 hfew
  have hsum := ((ofStored_simplify_text .compact).1 (repeatedSumText 500)).2.1 hhigh
  exact ⟨⟨hfew, hproduct⟩, hhigh, hsum⟩

/-- A sum of 128 variables is lost when it is converted and stored. -/
theorem ofStored_simplify_repeatedSum :
    ofStored (text (repeatedSumText 127)).simplify.toJson.compact = .error .malformed ∧
      ¬ ∀ source, ofStored (text source).simplify.toJson.compact = .ok (text source).simplify := by
  have hheight : 127 < (text (repeatedSumText 127)).simplify.height := by
    rw [height_simplify_repeatedSum]
    decide
  have hlost := ofStored_write_of_lt_height hheight .compact
  refine ⟨hlost, fun h => ?_⟩
  have hkept := h (repeatedSumText 127)
  rw [Json.compact, hlost] at hkept
  cases hkept

end Formula

end SceneFormula
