import SceneFormula.Proofs.Grammar
import SceneFormula.Proofs.Parsing.Levels

/-!
# What the parser reads

Whatever a reader of the parser takes off the front of the tokens is a phrase of the grammar, and
its cost is covered by the budget of the reader.
-/

namespace SceneFormula.Parser

open Grammar

/-- What `read` takes off the front of the tokens is a phrase `p` of cost at most `n`. -/
def Sound (read : Reader Expr) (p : Phrase) (n : Nat) : Prop :=
  ∀ ts e rest, read ts = .ok (e, rest) → ∃ us c, us ++ rest = ts ∧ c ≤ n ∧ Derives p us e c

variable {operand : Reader Expr} {n : Nat}

theorem shortens_of_sound {p : Phrase} (h : Sound operand p n) : Shortens operand := by
  intro ts e rest hok
  obtain ⟨us, c, rfl, -, -⟩ := h ts e rest hok
  simp

theorem sound_chain {k : Nat} (h : Sound operand (.level k) n) (bound : List Token)
    {ls : List Token} {left : Expr} {c : Nat} (hc : c ≤ n)
    (hl : Derives (.level (k + 1)) ls left c) {ts : List Token} {e : Expr} {rest : List Token}
    (hok : chain operand (k + 1) bound left ts = .ok (e, rest)) :
    ∃ us d, us ++ rest = ts ∧ d ≤ n ∧ Derives (.level (k + 1)) (ls ++ us) e d := by
  induction bound generalizing ls left c ts with
  | nil =>
    obtain ⟨rfl, rfl⟩ : left = e ∧ ts = rest := by simpa [chain] using hok
    exact ⟨[], c, rfl, hc, by rwa [List.append_nil]⟩
  | cons b bound ih =>
    cases ts with
    | nil =>
      obtain ⟨rfl, rfl⟩ : left = e ∧ [] = rest := by simpa [chain] using hok
      exact ⟨[], c, rfl, hc, by rwa [List.append_nil]⟩
    | cons t ts =>
      rcases chain_ok_cases hok with ⟨-, rfl, rfl⟩ | ⟨op, right, mid, hop, hright, hmid⟩
      · exact ⟨[], c, rfl, hc, by rwa [List.append_nil]⟩
      · obtain ⟨rs, d, rfl, hd, hr⟩ := h _ _ _ hright
        obtain ⟨row, hrow, hmem⟩ := binary?_eq_some_iff.mp (Token.atLevel?_eq_some_iff.mp hop)
        have hboth := Derives.between hrow hmem hl hr
        obtain ⟨us, d', rfl, hd', he⟩ := ih (max_le hc hd) hboth hmid
        exact ⟨t :: rs ++ us, d', by simp, hd', by simpa using he⟩

theorem sound_level (h : Sound operand (.level 0) n) (k : Nat) :
    Sound (level operand k) (.level k) n := by
  induction k with
  | zero => exact h
  | succ k ih =>
    intro ts e rest hok
    simp only [level] at hok
    split at hok
    next => simp at hok
    next left mid hleft =>
      obtain ⟨ls, c, rfl, hc, hl⟩ := ih _ _ _ hleft
      obtain ⟨us, d, rfl, hd, he⟩ := sound_chain ih _ hc hl.tighter hok
      exact ⟨ls ++ us, d, List.append_assoc _ _ _, hd, he⟩

theorem sound_expression (h : Sound operand (.level 0) n) :
    Sound (expression operand) (.level 10) n := by
  rw [expression_eq_level (shortens_of_sound h)]
  exact sound_level h 10

theorem expect_eq_ok_iff {wanted : Token} {ts rest : List Token} :
    expect wanted ts = .ok rest ↔ ts = wanted :: rest := by
  cases ts with
  | nil => simp [expect]
  | cons t ts =>
    by_cases ht : t = wanted <;> simp [expect, ht]

/-- Arguments are read one by one, with a comma after each but the last. -/
theorem moreArguments_cases {argument : Reader Expr} {bound ts : List Token} {args : List Expr}
    {rest : List Token} (h : moreArguments argument bound ts = .ok (args, rest)) :
    ∃ first mid, argument ts = .ok (first, mid) ∧
      ((mid = .rightParen :: rest ∧ args = [first]) ∨
        ∃ bound' mid' others, mid = .comma :: mid' ∧ args = first :: others ∧
          moreArguments argument bound' mid' = .ok (others, rest)) := by
  unfold moreArguments at h
  split at h
  next => simp at h
  next first mid hfirst =>
    refine ⟨first, mid, hfirst, ?_⟩
    split at h
    next b bound' mid' =>
      split at h
      next => simp at h
      next others rest' hothers =>
        obtain ⟨rfl, rfl⟩ : first :: others = args ∧ rest' = rest := by simpa using h
        exact .inr ⟨bound', mid', others, rfl, rfl, hothers⟩
    next =>
      split at h
      next => simp at h
      next rest' hrest =>
        obtain ⟨rfl, rfl⟩ : [first] = args ∧ rest' = rest := by simpa using h
        exact .inl ⟨expect_eq_ok_iff.mp hrest, rfl⟩

theorem moreArguments_ne_nil {argument : Reader Expr} {bound ts : List Token}
    {rest : List Token} : moreArguments argument bound ts ≠ .ok ([], rest) := by
  intro h
  obtain ⟨first, mid, -, ⟨-, h⟩ | ⟨-, -, others, -, h, -⟩⟩ := moreArguments_cases h <;> simp at h

theorem moreArguments_one {argument : Reader Expr} {bound ts rest : List Token} {a : Expr}
    (h : moreArguments argument bound ts = .ok ([a], rest)) :
    argument ts = .ok (a, .rightParen :: rest) := by
  obtain ⟨first, mid, hfirst, ⟨rfl, h⟩ | ⟨bound', mid', others, rfl, h, hothers⟩⟩ :=
    moreArguments_cases h
  · obtain rfl : a = first := by simpa using h
    exact hfirst
  · obtain ⟨rfl, rfl⟩ : a = first ∧ [] = others := by simpa using h
    exact absurd hothers moreArguments_ne_nil

theorem moreArguments_two {argument : Reader Expr} {bound ts rest : List Token} {a b : Expr}
    (h : moreArguments argument bound ts = .ok ([a, b], rest)) :
    ∃ mid, argument ts = .ok (a, .comma :: mid) ∧
      argument mid = .ok (b, .rightParen :: rest) := by
  obtain ⟨first, mid, hfirst, ⟨rfl, h⟩ | ⟨bound', mid', others, rfl, h, hothers⟩⟩ :=
    moreArguments_cases h
  · simp at h
  · obtain ⟨rfl, rfl⟩ : a = first ∧ [b] = others := by simpa using h
    exact ⟨mid', hfirst, moreArguments_one hothers⟩

theorem arguments_cases {argument : Reader Expr} {ts rest : List Token} {args : List Expr}
    (h : arguments argument ts = .ok (args, rest)) (hne : args ≠ []) :
    moreArguments argument ts ts = .ok (args, rest) := by
  unfold arguments at h
  split at h
  next =>
    obtain ⟨rfl, -⟩ : [] = args ∧ _ = rest := by simpa using h
    exact absurd rfl hne
  next => exact h

/-- Once the budget is used up there are no calls. -/
theorem call_none (name : String) (start ts : List Token) :
    ∃ f, call none name start ts = .error f := by
  unfold call
  split
  next => exact ⟨_, rfl⟩
  next =>
    split
    next => exact ⟨_, rfl⟩
    next => exact ⟨_, rfl⟩

theorem sound_call {inner : Reader Expr} {m : Nat} (h : Sound inner (.level 0) m) {name : String}
    {start ts : List Token} {e : Expr} {rest : List Token}
    (hok : call (some (arguments (expression inner))) name start ts = .ok (e, rest)) :
    ∃ us c, us ++ rest = .ident name :: ts ∧ c ≤ m + 1 ∧ Derives .primary us e c := by
  unfold call at hok
  split at hok
  next => simp at hok
  next f hf =>
    split at hok
    next => simp at hok
    next mid hmid =>
      obtain rfl := expect_eq_ok_iff.mp hmid
      simp only [nested] at hok
      split at hok
      next => simp at hok
      next args mid' hargs =>
        split at hok
        next => simp at hok
        next e' hbuild =>
          obtain ⟨rfl, rfl⟩ : e' = e ∧ mid' = rest := by simpa using hok
          rcases mem_calls_of_ofName? hf with ⟨op, rfl, hop⟩ | ⟨op, rfl, hop⟩
          · obtain ⟨a, rfl, rfl⟩ : ∃ a, args = [a] ∧ .unary op a = e' := by
              unfold Callee.build? at hbuild
              split at hbuild <;> simp_all
            have ha := moreArguments_one (arguments_cases hargs (by simp))
            obtain ⟨us, c, rfl, hc, hus⟩ := sound_expression h _ _ _ ha
            exact ⟨_, c + 1, by simp, by omega, .unaryCall hop hus⟩
          · obtain ⟨a, b, rfl, rfl⟩ : ∃ a b, args = [a, b] ∧ .binary op a b = e' := by
              unfold Callee.build? at hbuild
              split at hbuild <;> simp_all
            obtain ⟨mid, ha, hb⟩ := moreArguments_two (arguments_cases hargs (by simp))
            obtain ⟨us, c, rfl, hc, hus⟩ := sound_expression h _ _ _ ha
            obtain ⟨vs, d, rfl, hd, hvs⟩ := sound_expression h _ _ _ hb
            exact ⟨_, max c d + 1, by simp, by omega, .binaryCall hop hus hvs⟩

/-- The reader of what stands in parentheses, for a primary phrase that has `n` units of the budget
left. -/
def inner? : Nat → Option (Reader Expr)
  | 0 => none
  | n + 1 => some (Parser.operand n)

theorem operand_succ {t : Token} (h : t.unary? = none) (n : Nat) (ts : List Token) :
    Parser.operand (n + 1) (t :: ts) = primary (inner? n) (t :: ts) := by
  simp only [Parser.operand, h]
  cases n <;> rfl

theorem sound_primary {n : Nat} (h : ∀ m < n, Sound (Parser.operand m) (.level 0) m) :
    Sound (primary (inner? n)) .primary n := by
  intro ts e rest hok
  unfold primary at hok
  split at hok
  next k ts =>
    obtain ⟨rfl, rfl⟩ : .number k = e ∧ ts = rest := by simpa using hok
    exact ⟨_, 0, rfl, n.zero_le, .number k⟩
  next b ts =>
    obtain ⟨rfl, rfl⟩ : .number b.toInt64 = e ∧ ts = rest := by simpa using hok
    cases b with
    | true => exact ⟨_, 0, rfl, n.zero_le, .yes⟩
    | false => exact ⟨_, 0, rfl, n.zero_le, .no⟩
  next id ts =>
    obtain ⟨rfl, rfl⟩ : .var id = e ∧ ts = rest := by simpa using hok
    exact ⟨_, 0, rfl, n.zero_le, .reference id⟩
  next name ts =>
    cases n with
    | zero =>
      obtain ⟨f, hf⟩ := call_none name (.ident name :: ts) ts
      simp [inner?, hf] at hok
    | succ m => exact sound_call (h m m.lt_succ_self) hok
  next ts =>
    cases n with
    | zero => simp [inner?, nested] at hok
    | succ m =>
      simp only [inner?, Option.map_some, nested, parenthesised] at hok
      split at hok
      next => simp at hok
      next e' mid hmid =>
        split at hok
        next => simp at hok
        next rest' hrest =>
          obtain ⟨rfl, rfl⟩ : e' = e ∧ rest' = rest := by simpa using hok
          obtain rfl := expect_eq_ok_iff.mp hrest
          obtain ⟨us, c, rfl, hc, hus⟩ := sound_expression (h m m.lt_succ_self) _ _ _ hmid
          exact ⟨_, c + 1, by simp, by omega, .parenthesised hus⟩
  next => simp at hok

theorem sound_operand (n : Nat) : Sound (Parser.operand n) (.level 0) n := by
  induction n using Nat.strong_induction_on with
  | _ n ih =>
    intro ts e rest hok
    cases n with
    | zero => simp [Parser.operand] at hok
    | succ n =>
      cases ts with
      | nil => simp [Parser.operand, primary] at hok
      | cons t ts =>
        cases hun : t.unary? with
        | none =>
          rw [operand_succ hun] at hok
          obtain ⟨us, c, hus, hc, hd⟩ :=
            sound_primary (fun m hm => ih m (Nat.lt_succ_of_lt hm)) _ _ _ hok
          exact ⟨us, c + 1, hus, Nat.succ_le_succ hc, .operand hd⟩
        | some build =>
          simp only [Parser.operand, hun] at hok
          split at hok
          next => simp at hok
          next e' mid hmid =>
            obtain ⟨rfl, rfl⟩ : build e' = e ∧ mid = rest := by simpa using hok
            obtain ⟨us, c, rfl, hc, hd⟩ := ih n n.lt_succ_self _ _ _ hmid
            refine ⟨t :: us, c + 1, rfl, Nat.succ_le_succ hc, ?_⟩
            cases t <;> simp only [Token.unary?, reduceCtorEq, Option.some.injEq] at hun <;>
              subst hun
            · exact .minus hd
            · exact .bang hd
            · exact .tilde hd

theorem shortens_operand (n : Nat) : Shortens (Parser.operand n) :=
  shortens_of_sound (sound_operand n)

end SceneFormula.Parser
