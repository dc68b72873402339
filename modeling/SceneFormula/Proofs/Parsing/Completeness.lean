import SceneFormula.Proofs.Parsing.Soundness

/-!
# Reading the phrases of the grammar

A phrase is read if the budget covers its cost.  An operand is read whatever comes after it, while a
level reads on for as long as its operators follow one another: what has been read at the end of a
derivation is therefore stated by what the level still does from there.
-/

namespace SceneFormula.Parser

open Grammar

variable {n : Nat}

theorem level_succ_of_ok {operand : Reader Expr} {k : Nat} {ts mid : List Token} {left : Expr}
    (h : level operand k ts = .ok (left, mid)) :
    level operand (k + 1) ts = extend operand (k + 1) left mid := by
  simp only [level, h, extend]

/-- With a budget of `n` the tokens `us` are read as `e`, whatever comes after them.  At the end of
a phrase of some level, reading goes on with the operators that may follow at this level. -/
def Accepts (n : Nat) : Phrase → List Token → Expr → Prop
  | .primary, us, e => ∀ rest, primary (inner? n) (us ++ rest) = .ok (e, rest)
  | .level k, us, e => ∀ rest, Stops (k - 1) rest →
      level (Parser.operand n) k (us ++ rest) = extend (Parser.operand n) k e rest

theorem Accepts.expression {us : List Token} {e : Expr} (h : Accepts n (.level 10) us e)
    {rest : List Token} (hrest : Stops 10 rest) :
    expression (Parser.operand n) (us ++ rest) = .ok (e, rest) := by
  rw [expression_eq_level (shortens_operand n), h rest (hrest.mono (by decide)),
    extend_of_stops hrest]

theorem moreArguments_of_last {argument : Reader Expr} {ts rest : List Token} {a : Expr}
    (h : argument ts = .ok (a, .rightParen :: rest)) (bound : List Token) :
    moreArguments argument bound ts = .ok ([a], rest) := by
  unfold moreArguments
  rw [h]
  cases bound <;> simp [expect]

theorem moreArguments_of_comma {argument : Reader Expr} {ts mid rest : List Token} {a : Expr}
    {others : List Expr} (h : argument ts = .ok (a, .comma :: mid)) (b : Token)
    {bound : List Token} (hothers : moreArguments argument bound mid = .ok (others, rest)) :
    moreArguments argument (b :: bound) ts = .ok (a :: others, rest) := by
  unfold moreArguments
  rw [h]
  simp only [hothers]

theorem arguments_of_head {argument : Reader Expr} {t : Token} (ht : t ≠ .rightParen)
    (ts : List Token) :
    arguments argument (t :: ts) = moreArguments argument (t :: ts) (t :: ts) := by
  cases t <;> first | exact absurd rfl ht | rfl

theorem call_of_arguments {inner : Reader (List Expr)} {name : String} {f : Callee}
    {ts rest : List Token} {args : List Expr} {e : Expr} (start : List Token)
    (hf : Callee.ofName? name = some f) (hargs : inner ts = .ok (args, rest))
    (hbuild : f.build? args = some e) :
    call (some inner) name start (.leftParen :: ts) = .ok (e, rest) := by
  simp [call, hf, expect, nested, hargs, hbuild]

theorem accepts_unaryCall {name : String} {op : UnaryOp} {us : List Token} {e : Expr} {c : Nat}
    (hop : (name, op) ∈ unaryCalls) (hd : Derives (.level 10) us e c)
    (h : Accepts n (.level 10) us e) :
    Accepts (n + 1) .primary (.ident name :: .leftParen :: us ++ [.rightParen])
      (.unary op e) := by
  intro rest
  have hus := h.expression (stops_cons_of_none (t := .rightParen) rfl 10 rest)
  obtain ⟨t, ts, rfl, ht⟩ := hd.exists_head
  have hargs : arguments (expression (Parser.operand n)) (t :: ts ++ .rightParen :: rest) =
      .ok ([e], rest) :=
    (arguments_of_head ht _).trans (moreArguments_of_last hus _)
  have hcall := call_of_arguments (.ident name :: .leftParen :: (t :: ts) ++ .rightParen :: rest)
    (ofName?_of_mem_unaryCalls hop) hargs rfl
  simpa [primary, inner?] using hcall

theorem accepts_binaryCall {name : String} {op : BinaryOp} {us vs : List Token} {a b : Expr}
    {c : Nat} (hop : (name, op) ∈ binaryCalls) (hd : Derives (.level 10) us a c)
    (ha : Accepts n (.level 10) us a) (hb : Accepts n (.level 10) vs b) :
    Accepts (n + 1) .primary (.ident name :: .leftParen :: us ++ .comma :: vs ++ [.rightParen])
      (.binary op a b) := by
  intro rest
  have hus := ha.expression
    (stops_cons_of_none (t := .comma) rfl 10 (vs ++ .rightParen :: rest))
  have hvs := hb.expression (stops_cons_of_none (t := .rightParen) rfl 10 rest)
  obtain ⟨t, ts, rfl, ht⟩ := hd.exists_head
  have hargs : arguments (expression (Parser.operand n))
      (t :: ts ++ .comma :: (vs ++ .rightParen :: rest)) = .ok ([a, b], rest) :=
    (arguments_of_head ht _).trans
      (moreArguments_of_comma hus _ (moreArguments_of_last hvs _))
  have hcall := call_of_arguments
    (.ident name :: .leftParen :: (t :: ts) ++ .comma :: (vs ++ .rightParen :: rest))
    (ofName?_of_mem_binaryCalls hop) hargs rfl
  simpa [primary, inner?] using hcall

theorem accepts_parenthesised {us : List Token} {e : Expr} (h : Accepts n (.level 10) us e) :
    Accepts (n + 1) .primary (.leftParen :: us ++ [.rightParen]) e := by
  intro rest
  have hus := h.expression (stops_cons_of_none (t := .rightParen) rfl 10 rest)
  simp [primary, inner?, nested, parenthesised, hus, expect]

theorem accepts_between {k : Nat} {row : List (Token × BinaryOp)} {t : Token} {op : BinaryOp}
    {us vs : List Token} {l r : Expr} (hrow : rows[k]? = some row) (hop : (t, op) ∈ row)
    (hl : Accepts n (.level (k + 1)) us l) (hr : Accepts n (.level k) vs r) :
    Accepts n (.level (k + 1)) (us ++ t :: vs) (.binary op l r) := by
  intro rest (hrest : Stops k rest)
  have hbinary := binary?_eq_some_iff.mpr ⟨row, hrow, hop⟩
  have hlevel := Token.atLevel?_eq_some_iff.mpr hbinary
  have hright : level (Parser.operand n) k (vs ++ rest) = .ok (r, rest) := by
    rw [hr rest (hrest.mono (by omega)), extend_of_stops hrest]
  rw [List.append_assoc, List.cons_append,
    hl _ (stops_cons_of_some hbinary (by omega) _),
    extend_succ_cons (shortens_operand n) hlevel hright]

theorem accepts_operand {us : List Token} {e : Expr} {c : Nat} (hd : Derives .primary us e c)
    (h : Accepts n .primary us e) : Accepts (n + 1) (.level 0) us e := by
  intro rest _
  have hus := h rest
  obtain ⟨t, ts, rfl, ht⟩ := hd.exists_head_of_primary
  exact (operand_succ ht n _).trans hus

theorem accepts_sign {t : Token} {build : Expr → Expr} (ht : t.unary? = some build)
    {us : List Token} {e : Expr} (h : Accepts n (.level 0) us e) :
    Accepts (n + 1) (.level 0) (t :: us) (build e) := by
  intro rest hrest
  have hus : Parser.operand n (us ++ rest) = .ok (e, rest) := h rest hrest
  change Parser.operand (n + 1) (t :: (us ++ rest)) = .ok (build e, rest)
  simp only [Parser.operand, ht, hus]

theorem accepts_tighter {k : Nat} {us : List Token} {e : Expr} (h : Accepts n (.level k) us e) :
    Accepts n (.level (k + 1)) us e := by
  intro rest (hrest : Stops k rest)
  apply level_succ_of_ok
  rw [h rest (hrest.mono (by omega)), extend_of_stops hrest]

/-- A phrase is read if the budget covers its cost. -/
theorem accepts_of_derives {p : Phrase} {us : List Token} {e : Expr} {c : Nat}
    (h : Derives p us e c) {n : Nat} (hc : c ≤ n) : Accepts n p us e := by
  induction h generalizing n with
  | number | yes | no | reference => exact fun rest => rfl
  | tighter _ ih => exact accepts_tighter (ih hc)
  | between hrow hop _ _ ihl ihr =>
    exact accepts_between hrow hop (ihl (le_of_max_le_left hc)) (ihr (le_of_max_le_right hc))
  | parenthesised _ ih =>
    cases n with
    | zero => simp at hc
    | succ n => exact accepts_parenthesised (ih (Nat.le_of_succ_le_succ hc))
  | unaryCall hop hd ih =>
    cases n with
    | zero => simp at hc
    | succ n => exact accepts_unaryCall hop hd (ih (Nat.le_of_succ_le_succ hc))
  | binaryCall hop ha _ iha ihb =>
    cases n with
    | zero => simp at hc
    | succ n =>
      have hmax := Nat.le_of_succ_le_succ hc
      exact accepts_binaryCall hop ha (iha (le_of_max_le_left hmax))
        (ihb (le_of_max_le_right hmax))
  | operand hd ih =>
    cases n with
    | zero => simp at hc
    | succ n => exact accepts_operand hd (ih (Nat.le_of_succ_le_succ hc))
  | minus _ ih | bang _ ih | tilde _ ih =>
    cases n with
    | zero => simp at hc
    | succ n => exact accepts_sign rfl (ih (Nat.le_of_succ_le_succ hc))

end SceneFormula.Parser
