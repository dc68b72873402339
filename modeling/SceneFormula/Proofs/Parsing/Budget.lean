import SceneFormula.Proofs.Parsing.Completeness

/-!
# Phrases beyond the budget

A phrase whose cost is not covered by the budget makes its reader fail, whatever comes after it.
-/

namespace SceneFormula.Parser

open Grammar

variable {n : Nat}

/-- With a budget of `n` no reading gets past the tokens `us`. -/
def Rejects (n : Nat) : Phrase → List Token → Prop
  | .primary, us => ∀ rest, ∃ f, primary (inner? n) (us ++ rest) = .error f
  | .level k, us => ∀ rest, Stops (k - 1) rest →
      ∃ f, level (Parser.operand n) k (us ++ rest) = .error f

theorem Rejects.expression {us : List Token} (h : Rejects n (.level 10) us) {rest : List Token}
    (hrest : Stops 10 rest) : ∃ f, expression (Parser.operand n) (us ++ rest) = .error f := by
  rw [expression_eq_level (shortens_operand n)]
  exact h rest (hrest.mono (by decide))

theorem moreArguments_of_error {argument : Reader Expr} {ts : List Token} {f : Failure}
    (h : argument ts = .error f) (bound : List Token) :
    moreArguments argument bound ts = .error f := by
  unfold moreArguments
  rw [h]

theorem moreArguments_of_comma_error {argument : Reader Expr} {ts mid : List Token} {a : Expr}
    {f : Failure} (h : argument ts = .ok (a, .comma :: mid)) (b : Token) {bound : List Token}
    (hothers : moreArguments argument bound mid = .error f) :
    moreArguments argument (b :: bound) ts = .error f := by
  unfold moreArguments
  rw [h]
  simp only [hothers]

theorem call_of_error {inner : Reader (List Expr)} {name : String} {callee : Callee}
    {ts : List Token} {f : Failure} (start : List Token)
    (hcallee : Callee.ofName? name = some callee) (h : inner ts = .error f) :
    call (some inner) name start (.leftParen :: ts) = .error f := by
  simp [call, hcallee, expect, nested, h]

theorem rejects_call {name : String} {callee : Callee} {us : List Token}
    (hcallee : Callee.ofName? name = some callee)
    (h : ∀ rest, ∃ f, arguments (expression (Parser.operand n)) (us ++ rest) = .error f) :
    Rejects (n + 1) .primary (.ident name :: .leftParen :: us) := by
  intro rest
  obtain ⟨f, hf⟩ := h rest
  exact ⟨f, call_of_error _ hcallee hf⟩

theorem rejects_zero_call (name : String) (us : List Token) :
    Rejects 0 .primary (.ident name :: us) :=
  fun rest => call_none name (.ident name :: us ++ rest) (us ++ rest)

theorem rejects_unaryCall {name : String} {op : UnaryOp} {us : List Token} {e : Expr} {c : Nat}
    (hop : (name, op) ∈ unaryCalls) (hd : Derives (.level 10) us e c)
    (h : Rejects n (.level 10) us) :
    Rejects (n + 1) .primary (.ident name :: .leftParen :: us ++ [.rightParen]) := by
  simp only [List.cons_append]
  refine rejects_call (ofName?_of_mem_unaryCalls hop) fun rest => ?_
  obtain ⟨f, hf⟩ := h.expression (stops_cons_of_none (t := .rightParen) rfl 10 rest)
  obtain ⟨t, ts, rfl, ht⟩ := hd.exists_head
  refine ⟨f, ?_⟩
  rw [List.append_assoc]
  exact (arguments_of_head ht _).trans (moreArguments_of_error hf _)

theorem rejects_binaryCall_left {name : String} {op : BinaryOp} {us vs : List Token} {a : Expr}
    {c : Nat} (hop : (name, op) ∈ binaryCalls) (hd : Derives (.level 10) us a c)
    (h : Rejects n (.level 10) us) :
    Rejects (n + 1) .primary
      (.ident name :: .leftParen :: us ++ .comma :: vs ++ [.rightParen]) := by
  simp only [List.cons_append, List.append_assoc]
  refine rejects_call (ofName?_of_mem_binaryCalls hop) fun rest => ?_
  obtain ⟨f, hf⟩ := h.expression
    (stops_cons_of_none (t := .comma) rfl 10 (vs ++ ([.rightParen] ++ rest)))
  obtain ⟨t, ts, rfl, ht⟩ := hd.exists_head
  refine ⟨f, ?_⟩
  simp only [List.append_assoc, List.cons_append] at hf ⊢
  exact (arguments_of_head ht _).trans (moreArguments_of_error hf _)

theorem rejects_binaryCall_right {name : String} {op : BinaryOp} {us vs : List Token} {a : Expr}
    {c : Nat} (hop : (name, op) ∈ binaryCalls) (hd : Derives (.level 10) us a c)
    (ha : Accepts n (.level 10) us a) (hb : Rejects n (.level 10) vs) :
    Rejects (n + 1) .primary
      (.ident name :: .leftParen :: us ++ .comma :: vs ++ [.rightParen]) := by
  simp only [List.cons_append, List.append_assoc]
  refine rejects_call (ofName?_of_mem_binaryCalls hop) fun rest => ?_
  have hus := ha.expression
    (stops_cons_of_none (t := .comma) rfl 10 (vs ++ ([.rightParen] ++ rest)))
  obtain ⟨f, hf⟩ := hb.expression (stops_cons_of_none (t := .rightParen) rfl 10 rest)
  obtain ⟨t, ts, rfl, ht⟩ := hd.exists_head
  refine ⟨f, ?_⟩
  simp only [List.append_assoc, List.cons_append] at hus ⊢
  exact (arguments_of_head ht _).trans
    (moreArguments_of_comma_error hus _ (moreArguments_of_error hf _))

theorem rejects_parenthesised {us : List Token} (h : Rejects n (.level 10) us) :
    Rejects (n + 1) .primary (.leftParen :: us ++ [.rightParen]) := by
  intro rest
  obtain ⟨f, hf⟩ := h.expression (stops_cons_of_none (t := .rightParen) rfl 10 rest)
  exact ⟨f, by simp [primary, inner?, nested, parenthesised, hf]⟩

theorem rejects_operand {us : List Token} {e : Expr} {c : Nat} (hd : Derives .primary us e c)
    (h : Rejects n .primary us) : Rejects (n + 1) (.level 0) us := by
  intro rest _
  obtain ⟨f, hf⟩ := h rest
  obtain ⟨t, ts, rfl, ht⟩ := hd.exists_head_of_primary
  exact ⟨f, (operand_succ ht n _).trans hf⟩

theorem rejects_sign {t : Token} {build : Expr → Expr} (ht : t.unary? = some build)
    {us : List Token} (h : Rejects n (.level 0) us) : Rejects (n + 1) (.level 0) (t :: us) := by
  intro rest hrest
  obtain ⟨f, hf⟩ := h rest hrest
  change Parser.operand n (us ++ rest) = .error f at hf
  refine ⟨f, ?_⟩
  change Parser.operand (n + 1) (t :: (us ++ rest)) = .error f
  simp only [Parser.operand, ht, hf]

theorem rejects_tighter {k : Nat} {us : List Token} (h : Rejects n (.level k) us) :
    Rejects n (.level (k + 1)) us := by
  intro rest (hrest : Stops k rest)
  obtain ⟨f, hf⟩ := h rest (hrest.mono (by omega))
  exact ⟨f, by simp only [level, hf]⟩

theorem rejects_between_left {k : Nat} {row : List (Token × BinaryOp)} {t : Token}
    {op : BinaryOp} {us vs : List Token} (hrow : rows[k]? = some row) (hop : (t, op) ∈ row)
    (h : Rejects n (.level (k + 1)) us) : Rejects n (.level (k + 1)) (us ++ t :: vs) := by
  intro rest _
  have hbinary := binary?_eq_some_iff.mpr ⟨row, hrow, hop⟩
  rw [List.append_assoc, List.cons_append]
  exact h _ (stops_cons_of_some hbinary (by omega) _)

theorem rejects_between_right {k : Nat} {row : List (Token × BinaryOp)} {t : Token}
    {op : BinaryOp} {us vs : List Token} {l : Expr} (hrow : rows[k]? = some row)
    (hop : (t, op) ∈ row) (hl : Accepts n (.level (k + 1)) us l)
    (hr : Rejects n (.level k) vs) : Rejects n (.level (k + 1)) (us ++ t :: vs) := by
  intro rest (hrest : Stops k rest)
  have hbinary := binary?_eq_some_iff.mpr ⟨row, hrow, hop⟩
  have hlevel := Token.atLevel?_eq_some_iff.mpr hbinary
  obtain ⟨f, hf⟩ := hr rest (hrest.mono (by omega))
  refine ⟨f, ?_⟩
  rw [List.append_assoc, List.cons_append, hl _ (stops_cons_of_some hbinary (by omega) _)]
  simp only [extend, chain, hlevel, hf]

theorem rejects_of_derives {p : Phrase} {us : List Token} {e : Expr} {c : Nat}
    (h : Derives p us e c) {n : Nat} (hc : n < c) : Rejects n p us := by
  induction h generalizing n with
  | number | yes | no | reference => simp at hc
  | tighter _ ih => exact rejects_tighter (ih hc)
  | between hrow hop hl _ ihl ihr =>
    rcases lt_or_ge n _ with hn | hn
    · exact rejects_between_left hrow hop (ihl hn)
    · exact rejects_between_right hrow hop (accepts_of_derives hl hn)
        (ihr ((lt_max_iff.mp hc).resolve_left hn.not_gt))
  | parenthesised _ ih =>
    cases n with
    | zero => exact fun rest => ⟨_, rfl⟩
    | succ n => exact rejects_parenthesised (ih (Nat.lt_of_succ_lt_succ hc))
  | unaryCall hop hd ih =>
    cases n with
    | zero => exact rejects_zero_call _ _
    | succ n => exact rejects_unaryCall hop hd (ih (Nat.lt_of_succ_lt_succ hc))
  | binaryCall hop ha _ iha ihb =>
    cases n with
    | zero => exact rejects_zero_call _ _
    | succ n =>
      have hmax := lt_max_iff.mp (Nat.lt_of_succ_lt_succ hc)
      rcases lt_or_ge n _ with hn | hn
      · exact rejects_binaryCall_left hop ha (iha hn)
      · exact rejects_binaryCall_right hop ha (accepts_of_derives ha hn)
          (ihb (hmax.resolve_left hn.not_gt))
  | operand hd ih =>
    cases n with
    | zero => exact fun rest _ => ⟨_, rfl⟩
    | succ n => exact rejects_operand hd (ih (Nat.lt_of_succ_lt_succ hc))
  | minus _ ih | bang _ ih | tilde _ ih =>
    cases n with
    | zero => exact fun rest _ => ⟨_, rfl⟩
    | succ n => exact rejects_sign rfl (ih (Nat.lt_of_succ_lt_succ hc))

end SceneFormula.Parser
