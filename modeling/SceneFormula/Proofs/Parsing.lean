import SceneFormula.Proofs.Parsing.Budget
import Mathlib

/-!
# Parsing by the grammar

The parser accepts exactly what the grammar derives at a cost that its budget covers, and builds the
one expression that the grammar gives.
-/

namespace SceneFormula

namespace Parser

open Grammar

variable {n : Nat}

theorem expression_of_derives {ts : List Token} {e : Expr} {c : Nat}
    (h : Derives (.level 10) ts e c) (hc : c ≤ n) :
    expression (Parser.operand n) ts = .ok (e, []) := by
  have hok := (accepts_of_derives h hc).expression (stops_nil 10)
  rwa [List.append_nil] at hok

theorem expression_ne_ok_of_derives {ts : List Token} {e : Expr} {c : Nat}
    (h : Derives (.level 10) ts e c) (hc : n < c) (r : Expr × List Token) :
    expression (Parser.operand n) ts ≠ .ok r := by
  obtain ⟨f, hf⟩ := (rejects_of_derives h hc).expression (stops_nil 10)
  rw [List.append_nil] at hf
  simp [hf]

theorem parse_eq_ok_iff {ts : List Token} {e : Expr} :
    parse ts = .ok e ↔ ∃ c ≤ budget, Derives (.level 10) ts e c := by
  constructor
  · intro h
    unfold parse at h
    split at h
    next => simp at h
    next e' hok =>
      obtain rfl := Except.ok.inj h
      obtain ⟨us, c, hus, hc, hd⟩ := sound_expression (sound_operand budget) _ _ _ hok
      rw [List.append_nil] at hus
      exact ⟨c, hc, hus ▸ hd⟩
    next => simp at h
  · rintro ⟨c, hc, hd⟩
    simp only [parse, expression_of_derives hd hc]

end Parser

namespace Grammar

/-- The grammar is unambiguous: tokens spell at most one expression, at one cost. -/
theorem Derives.unique {ts : List Token} {d e : Expr} {b c : Nat}
    (hd : Derives (.level 10) ts d b) (he : Derives (.level 10) ts e c) : d = e ∧ b = c := by
  constructor
  · have hd' := Parser.expression_of_derives hd (le_max_left b c)
    rw [Parser.expression_of_derives he (le_max_right b c)] at hd'
    have hed : e = d := by simpa using hd'
    exact hed.symm
  · rcases lt_trichotomy b c with h | h | h
    · exact absurd (Parser.expression_of_derives hd le_rfl)
        (Parser.expression_ne_ok_of_derives he h _)
    · exact h
    · exact absurd (Parser.expression_of_derives he le_rfl)
        (Parser.expression_ne_ok_of_derives hd h _)

end Grammar

namespace Expr

theorem ofText?_eq_ok_iff {text : String} {lexemes : List Lexeme}
    (h : Lexeme.ofText? text = .ok lexemes) {e : Expr} :
    ofText? text = .ok e ↔ Parser.parse (lexemes.map Lexeme.token) = .ok e := by
  simp only [ofText?, h]
  split
  next e' he => simp [he]
  next f hf =>
    rw [hf]
    split <;> simp

/-- Whatever a text is read as, its tokens spell. -/
theorem exists_derives_of_ofText? {text : String} {e : Expr} (h : ofText? text = .ok e) :
    ∃ lexemes c, Lexeme.ofText? text = .ok lexemes ∧ c ≤ 256 ∧
      Grammar.Derives (.level 10) (lexemes.map Lexeme.token) e c := by
  cases hlex : Lexeme.ofText? text with
  | error fault => simp [ofText?, hlex] at h
  | ok lexemes =>
    obtain ⟨c, hc, hd⟩ := Parser.parse_eq_ok_iff.mp ((ofText?_eq_ok_iff hlex).mp h)
    exact ⟨lexemes, c, rfl, hc, hd⟩

/-- A text that can be cut into tokens is read as the formula `t` exactly if its tokens spell `t` in
the grammar at a cost of at most 256.  No other tokens are read, and none spell two formulas. -/
theorem ofText?_eq_ok_iff_derives {text : String} {lexemes : List Lexeme}
    (h : Lexeme.ofText? text = .ok lexemes) :
    (∀ t : Formula, (ofText? text).map toFormula = .ok t ↔
        ∃ e c, e.toFormula = t ∧ c ≤ 256 ∧
          Grammar.Derives (.level 10) (lexemes.map Lexeme.token) e c) ∧
      ((∃ fault, ofText? text = .error fault) ↔
        ∀ e c, Grammar.Derives (.level 10) (lexemes.map Lexeme.token) e c → 256 < c) ∧
      ∀ d e b c, Grammar.Derives (.level 10) (lexemes.map Lexeme.token) d b →
        Grammar.Derives (.level 10) (lexemes.map Lexeme.token) e c → d = e ∧ b = c := by
  have hok : ∀ e, ofText? text = .ok e ↔
      ∃ c ≤ 256, Grammar.Derives (.level 10) (lexemes.map Lexeme.token) e c :=
    fun e => (ofText?_eq_ok_iff h).trans Parser.parse_eq_ok_iff
  refine ⟨fun t => ?_, ?_, fun d e b c hd he => hd.unique he⟩
  · constructor
    · intro ht
      cases he : ofText? text with
      | error fault => simp [he, Except.map] at ht
      | ok e =>
        obtain rfl : e.toFormula = t := by simpa [he, Except.map] using ht
        obtain ⟨c, hc, hd⟩ := (hok e).mp he
        exact ⟨e, c, rfl, hc, hd⟩
    · rintro ⟨e, c, rfl, hc, hd⟩
      rw [(hok e).mpr ⟨c, hc, hd⟩]
      rfl
  · constructor
    · rintro ⟨fault, hfault⟩ e c hd
      by_contra hc
      simp [(hok e).mpr ⟨c, not_lt.mp hc, hd⟩] at hfault
    · intro hcost
      cases he : ofText? text with
      | error fault => exact ⟨fault, rfl⟩
      | ok e =>
        obtain ⟨c, hc, hd⟩ := (hok e).mp he
        exact absurd (hcost e c hd) hc.not_gt

theorem ofText?_eq_ok_iff_derives_difference :
    Lexeme.ofText? "1 -2-$07$" =
        .ok [⟨.number 1, 0, 1⟩, ⟨.minus, 2, 3⟩, ⟨.number 2, 3, 4⟩, ⟨.minus, 4, 5⟩,
          ⟨.reference "7", 5, 9⟩] ∧
      ∃ c ≤ 256, Grammar.Derives (.level 10)
        [.number 1, .minus, .number 2, .minus, .reference "7"]
        (.binary .sub (.binary .sub (.number 1) (.number 2)) (.var "7")) c := by
  have hlex : Lexeme.ofText? "1 -2-$07$" =
      .ok [⟨.number 1, 0, 1⟩, ⟨.minus, 2, 3⟩, ⟨.number 2, 3, 4⟩, ⟨.minus, 4, 5⟩,
        ⟨.reference "7", 5, 9⟩] := by
    cbv
  have hparse : (ofText? "1 -2-$07$").map toFormula =
      .ok (toFormula (.binary .sub (.binary .sub (.number 1) (.number 2)) (.var "7"))) := by
    cbv
  obtain ⟨e, c, he, hc, hd⟩ := ((ofText?_eq_ok_iff_derives hlex).1 _).mp hparse
  obtain rfl := toFormula_injective he
  exact ⟨hlex, c, hc, hd⟩

end Expr

end SceneFormula
