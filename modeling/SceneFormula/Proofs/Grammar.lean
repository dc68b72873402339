import SceneFormula.Text.Parser
import Mathlib.Tactic

/-!
# The grammar of expressions

A stratified grammar over tokens, written without the parser.  Level 0 holds the operands of the
operators between two operands, and each level above it adds one row of these operators; a row is
left associative, since its right operand is taken one level below.
-/

namespace SceneFormula.Grammar

/-- The operators between two operands, the row that binds tightest first. -/
def rows : List (List (Token × BinaryOp)) :=
  [[(.star, .mul), (.slash, .div), (.percent, .rem)],
    [(.plus, .add), (.minus, .sub)],
    [(.shiftLeft, .shiftLeft), (.shiftRight, .shiftRight)],
    [(.less, .lt), (.lessEqual, .le), (.greater, .gt), (.greaterEqual, .ge)],
    [(.equal, .eq), (.notEqual, .ne)],
    [(.ampersand, .bitAnd)],
    [(.caret, .bitXor)],
    [(.pipe, .bitOr)],
    [(.andAnd, .and)],
    [(.orOr, .or)]]

/-- The functions of one argument. -/
def unaryCalls : List (String × UnaryOp) := [("abs", .abs), ("rnd", .random), ("isqrt", .sqrt)]

/-- The functions of two arguments. -/
def binaryCalls : List (String × BinaryOp) := [("min", .min), ("max", .max), ("atan2", .angle)]

inductive Phrase where
  | primary
  | level (k : Nat)

/-- `Derives p ts e c`: the tokens `ts` are a phrase `p` that spells `e`, and along its deepest
chain it has `c` operands, pairs of parentheses and lists of arguments. -/
inductive Derives : Phrase → List Token → Expr → Nat → Prop
  | number (n : Int64) : Derives .primary [.number n] (.number n) 0
  | yes : Derives .primary [.truth true] (.number 1) 0
  | no : Derives .primary [.truth false] (.number 0) 0
  | reference (id : String) : Derives .primary [.reference id] (.var id) 0
  | parenthesised {ts e c} (h : Derives (.level 10) ts e c) :
      Derives .primary (.leftParen :: ts ++ [.rightParen]) e (c + 1)
  | unaryCall {name op ts e c} (hop : (name, op) ∈ unaryCalls)
      (h : Derives (.level 10) ts e c) :
      Derives .primary (.ident name :: .leftParen :: ts ++ [.rightParen]) (.unary op e) (c + 1)
  | binaryCall {name op ts us a b c d} (hop : (name, op) ∈ binaryCalls)
      (ha : Derives (.level 10) ts a c) (hb : Derives (.level 10) us b d) :
      Derives .primary (.ident name :: .leftParen :: ts ++ .comma :: us ++ [.rightParen])
        (.binary op a b) (max c d + 1)
  | operand {ts e c} (h : Derives .primary ts e c) : Derives (.level 0) ts e (c + 1)
  | minus {ts e c} (h : Derives (.level 0) ts e c) :
      Derives (.level 0) (.minus :: ts) (.binary .sub (.number 0) e) (c + 1)
  | bang {ts e c} (h : Derives (.level 0) ts e c) :
      Derives (.level 0) (.bang :: ts) (.unary .not e) (c + 1)
  | tilde {ts e c} (h : Derives (.level 0) ts e c) :
      Derives (.level 0) (.tilde :: ts) (.unary .complement e) (c + 1)
  | tighter {k ts e c} (h : Derives (.level k) ts e c) : Derives (.level (k + 1)) ts e c
  | between {k row t op ts us l r c d} (hrow : rows[k]? = some row) (hop : (t, op) ∈ row)
      (hl : Derives (.level (k + 1)) ts l c) (hr : Derives (.level k) us r d) :
      Derives (.level (k + 1)) (ts ++ t :: us) (.binary op l r) (max c d)

/-! ### Tables -/

theorem binary?_of_mem_rows :
    ∀ row ∈ rows.zipIdx, ∀ p ∈ row.1, p.1.binary? = some (row.2 + 1, p.2) := by
  decide

/-- The operator between two operands that a token stands for is the one in the row of its
level. -/
theorem binary?_eq_some_iff {t : Token} {k : Nat} {op : BinaryOp} :
    t.binary? = some (k + 1, op) ↔ ∃ row, rows[k]? = some row ∧ (t, op) ∈ row := by
  constructor
  · intro h
    cases t <;> simp only [Token.binary?, reduceCtorEq, Option.some.injEq, Prod.mk.injEq,
      Nat.reduceEqDiff] at h <;> obtain ⟨rfl, rfl⟩ := h <;> exact ⟨_, rfl, by decide⟩
  · rintro ⟨row, hrow, hop⟩
    exact binary?_of_mem_rows (row, k) (List.mk_mem_zipIdx_iff_getElem?.mpr hrow) (t, op) hop

theorem ofName?_of_mem_unaryCalls {name : String} {op : UnaryOp}
    (h : (name, op) ∈ unaryCalls) : Callee.ofName? name = some (.unary op) := by
  simp only [unaryCalls, List.mem_cons, List.not_mem_nil, or_false, Prod.mk.injEq] at h
  rcases h with ⟨rfl, rfl⟩ | ⟨rfl, rfl⟩ | ⟨rfl, rfl⟩ <;> rfl

theorem ofName?_of_mem_binaryCalls {name : String} {op : BinaryOp}
    (h : (name, op) ∈ binaryCalls) : Callee.ofName? name = some (.binary op) := by
  simp only [binaryCalls, List.mem_cons, List.not_mem_nil, or_false, Prod.mk.injEq] at h
  rcases h with ⟨rfl, rfl⟩ | ⟨rfl, rfl⟩ | ⟨rfl, rfl⟩ <;> rfl

/-- A name that can be called is that of a function of one argument or of two. -/
theorem mem_calls_of_ofName? {name : String} {f : Callee} (h : Callee.ofName? name = some f) :
    (∃ op, f = .unary op ∧ (name, op) ∈ unaryCalls) ∨
      ∃ op, f = .binary op ∧ (name, op) ∈ binaryCalls := by
  unfold Callee.ofName? at h
  split at h
  next op hop =>
    obtain rfl := Option.some.inj h
    obtain rfl : op.tag = name := by simpa using List.find?_some hop
    refine .inr ⟨op, rfl, ?_⟩
    have hmem := List.mem_of_find?_eq_some hop
    clear h hop
    revert op
    decide
  next =>
    obtain ⟨op, hop, rfl⟩ := Option.map_eq_some_iff.mp h
    obtain rfl : op.tag = name := by simpa using List.find?_some hop
    refine .inl ⟨op, rfl, ?_⟩
    have hmem := List.mem_of_find?_eq_some hop
    clear h hop
    simp only [List.mem_cons, List.not_mem_nil, or_false] at hmem
    rcases hmem with rfl | rfl | rfl <;> decide

/-! ### First tokens -/

theorem Derives.exists_head {p : Phrase} {ts : List Token} {e : Expr} {c : Nat}
    (h : Derives p ts e c) : ∃ t us, ts = t :: us ∧ t ≠ .rightParen := by
  induction h with
  | number | yes | no | reference | parenthesised | unaryCall | binaryCall | minus | bang
  | tilde => exact ⟨_, _, rfl, by simp⟩
  | operand _ ih | tighter _ ih => exact ih
  | between _ _ _ _ ih _ =>
    obtain ⟨t, us, rfl, ht⟩ := ih
    exact ⟨t, _, rfl, ht⟩

theorem Derives.exists_head_of_primary {ts : List Token} {e : Expr} {c : Nat}
    (h : Derives .primary ts e c) : ∃ t us, ts = t :: us ∧ t.unary? = none := by
  cases h <;> exact ⟨_, _, rfl, rfl⟩

end SceneFormula.Grammar
