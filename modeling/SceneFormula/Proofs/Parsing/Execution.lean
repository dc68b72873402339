import SceneFormula.Proofs.Parsing
import SceneFormula.Proofs.Parsing.Recursion

/-!
# The machine reads what the parser reads

Every reader of the parser has a place in the machine: with any calls open, the machine comes to the
result of the reader, or to its fault, and the same calls are open again.
-/

namespace SceneFormula.Parser.Machine

variable {ms : List Mark} {c d : Nat} {t : Token} {ts rest : List Token} {fs : List Frame}

/-- From place `c` on stand the tokens `ts`, and then the end of the text. -/
def At (ms : List Mark) (c : Nat) (ts : List Token) : Prop :=
  (ms.drop c).map Mark.token = ts.map some ++ [none]

namespace At

theorem length (h : At ms c ts) : c + ts.length + 1 = ms.length := by
  have hlength := congrArg List.length h
  simp only [List.length_map, List.length_drop, List.length_append, List.length_singleton]
    at hlength
  omega

theorem exists_mark (h : At ms c ts) : ∃ m, ms[c]? = some m ∧ m.token = ts.head? := by
  have hhead : ms[c]?.map Mark.token = some ts.head? := by
    rw [← List.head?_drop, ← List.head?_map, h]
    cases ts <;> rfl
  exact Option.map_eq_some_iff.mp hhead

theorem bump (h : At ms c (t :: ts)) : At ms (bump ms c) ts := by
  have hlt : c + 1 < ms.length := by
    have hlength := h.length
    simp only [List.length_cons] at hlength
    omega
  rw [Machine.bump, if_pos hlt, At, ← List.tail_drop, List.map_tail, h]
  rfl

end At

/-- `Yields ms d fs ret r s`: with the calls `fs` open at depth `d`, the state `s` returns what a
reader has come to, or fails at its fault. -/
inductive Yields {α : Type} (ms : List Mark) (d : Nat) (fs : List Frame) (ret : α → Control) :
    Except Failure (α × List Token) → State → Prop
  | ok {a : α} {rest : List Token} {c : Nat} (h : At ms c rest) :
      Yields ms d fs ret (.ok (a, rest)) ⟨c, d, ret a, fs⟩
  | error {f : Failure} {m : Mark} {c i : Nat} (h : At ms i f.rest) (hm : ms[i]? = some m) :
      Yields ms d fs ret (.error f) ⟨c, d, .failed ⟨m.start, f.fault⟩, fs⟩

/-- The machine does what the reader does, whatever calls are open. -/
def Reads {α : Type} (ms : List Mark) (d : Nat) (control : Control) (ret : α → Control)
    (read : Reader α) : Prop :=
  ∀ fs c ts, At ms c ts →
    ∃ s, Steps ms ⟨c, d, control, fs⟩ s ∧ Yields ms d fs ret (read ts) s

theorem Steps.cursor_le {s s' : State} (h : Steps ms s s') : s.cursor ≤ s'.cursor := by
  induction h with
  | refl => exact le_rfl
  | tail _ hstep ih =>
    rcases (step_cases hstep).cursor with heq | heq
    · exact heq ▸ ih
    · exact heq ▸ ih.trans le_bump

theorem At.length_le {s s' : State} {ts ts' : List Token} (h : At ms s.cursor ts)
    (h' : At ms s'.cursor ts') (hsteps : Steps ms s s') : ts'.length ≤ ts.length := by
  have hlength := h.length
  have hlength' := h'.length
  have hle := hsteps.cursor_le
  omega

/-! ### Returning -/

section

variable {α : Type} {ret : α → Control} {r : Except Failure (α × List Token)} {s s' : State}

/-- The unit of the depth is given back. -/
theorem Yields.nested (h : Yields ms (d + 1) (.nested :: fs) ret r s)
    (hret : ∀ a c, step ms ⟨c, d + 1, ret a, .nested :: fs⟩ = some ⟨c, d, ret a, fs⟩) :
    ∃ s', Steps ms s s' ∧ Yields ms d fs ret r s' := by
  cases h with
  | ok h => exact ⟨_, .single (hret _ _), .ok h⟩
  | error h hm => exact ⟨_, .single rfl, .error h hm⟩

theorem reads_nested {body : Body} {inner : Option (Reader α)}
    (hnone : inner = none → budget ≤ d)
    (hsome : ∀ read ∈ inner, d < budget ∧ Reads ms (d + 1) (.inside body) ret read)
    (hret : ∀ fs a c, step ms ⟨c, d + 1, ret a, .nested :: fs⟩ = some ⟨c, d, ret a, fs⟩) :
    Reads ms d (.enter body) ret (nested inner) := by
  intro fs c ts h
  cases inner with
  | none =>
    obtain ⟨m, hm, -⟩ := h.exists_mark
    refine ⟨⟨c, d, _, fs⟩, .single ?_, .error h hm⟩
    simp only [step, if_pos (hnone rfl), hm, Option.map_some]
  | some read =>
    obtain ⟨hd, hread⟩ := hsome read rfl
    obtain ⟨s, hsteps, hs⟩ := hread (.nested :: fs) c ts h
    obtain ⟨s', hback, hs'⟩ := hs.nested (hret fs)
    refine ⟨s', .head ?_ (hsteps.trans hback), hs'⟩
    simp only [step, if_neg (not_le.mpr hd)]

theorem expect_of_ok {wanted : Token} (h : At ms c ts)
    (hr : Parser.expect wanted ts = .ok rest) :
    At ms (bump ms c) rest ∧ ∀ d control fs next,
      expect ms (some wanted) ⟨c, d, control, fs⟩ next =
        some { next with cursor := bump ms c } := by
  obtain rfl := expect_eq_ok_iff.mp hr
  obtain ⟨m, hm, htoken⟩ := h.exists_mark
  refine ⟨h.bump, fun d control fs next => ?_⟩
  simp only [expect, hm, htoken, List.head?_cons, Option.map_some, if_true]

theorem expect_of_error {wanted : Token} {f : Failure} (h : At ms c ts)
    (hr : Parser.expect wanted ts = .error f) :
    ∃ m, ms[c]? = some m ∧ At ms c f.rest ∧ ∀ d control fs next,
      expect ms (some wanted) ⟨c, d, control, fs⟩ next =
        some ⟨c, d, .failed ⟨m.start, f.fault⟩, fs⟩ := by
  obtain ⟨m, hm, htoken⟩ := h.exists_mark
  refine ⟨m, hm, ?_⟩
  cases ts with
  | nil =>
    cases hr
    exact ⟨h, fun d control fs next => by simp [expect, hm, htoken]⟩
  | cons t ts =>
    by_cases ht : t = wanted
    · rw [Parser.expect, if_pos ht] at hr
      cases hr
    · rw [Parser.expect, if_neg ht] at hr
      cases hr
      exact ⟨h, fun d control fs next => by simp [expect, hm, htoken, ht]⟩

end

/-! ### Operators -/

section

variable {operand : Reader Expr} {p q : Nat} {op : BinaryOp} {left : Expr}

theorem power?_eq {k : Nat} (h : t.binary? = some (k, op)) : t.power? = some (11 - k, op) := by
  rw [Token.power?, h, Option.map_some]

theorem step_stop (h : At ms c ts)
    (hstop : ∀ t ∈ ts.head?, ∀ q op, t.power? = some (q, op) → q ≤ p) :
    step ms ⟨c, d, .climb p left, fs⟩ = some ⟨c, d, .value left, fs⟩ := by
  obtain ⟨m, hm, htoken⟩ := h.exists_mark
  simp only [step, hm, Option.map_some]
  split
  next q op hop =>
    obtain ⟨t, ht, hop⟩ := Option.bind_eq_some_iff.mp hop
    rw [if_pos (hstop t (htoken ▸ ht) q op hop)]
  next => rfl

theorem step_climb (h : At ms c (t :: ts)) (hop : t.power? = some (q, op)) (hq : p < q) :
    step ms ⟨c, d, .climb p left, fs⟩ = some ⟨bump ms c, d, .binary q, .right p op left :: fs⟩ := by
  obtain ⟨m, hm, htoken⟩ := h.exists_mark
  simp only [step, hm, Option.map_some, htoken, List.head?_cons, Option.bind_some, hop,
    if_neg (not_le.mpr hq)]

/-- The limit of the parser's loop and the power of the machine's add up to 11. -/
theorem steps_climb (hoperand : Reads ms d (.enter .prefixed) .value operand)
    {bound : List Token} {limit : Nat} (hlimit : limit + p = 11) (h : At ms c ts)
    (hbound : ts.length ≤ bound.length) :
    ∃ s, Steps ms ⟨c, d, .climb p left, fs⟩ s ∧
      Yields ms d fs .value (climb operand bound limit left ts) s := by
  induction bound generalizing limit p left fs c ts with
  | nil =>
    obtain rfl : ts = [] := List.length_eq_zero_iff.mp (Nat.le_zero.mp hbound)
    exact ⟨_, .single (step_stop h nofun), .ok h⟩
  | cons b bound ih =>
    cases ts with
    | nil => exact ⟨_, .single (step_stop h nofun), .ok h⟩
    | cons t ts =>
      rw [climb]
      split
      next ht =>
        refine ⟨_, .single (step_stop h ?_), .ok h⟩
        rintro _ ⟨⟩ q op hop
        simp [Token.power?, ht] at hop
      next k op ht =>
        have hpower := power?_eq ht
        split
        next hk =>
          refine ⟨_, .single (step_stop h ?_), .ok h⟩
          rintro _ ⟨⟩ q op' hop
          obtain ⟨rfl, -⟩ : 11 - k = q ∧ op = op' := by simpa [hpower] using hop
          omega
        next hk =>
          obtain ⟨s, hfirst, hs⟩ :=
            hoperand (.first (11 - k) :: .right p op left :: fs) (bump ms c) ts h.bump
          have hstart : Steps ms ⟨c, d, .climb p left, fs⟩ s :=
            .head (step_climb h hpower (by omega)) (.head rfl hfirst)
          have hlength : ts.length ≤ bound.length := Nat.le_of_succ_le_succ hbound
          generalize operand ts = r at hs
          cases hs with
          | error hi hm =>
            exact ⟨_, (hstart.tail rfl).tail rfl, .error hi hm⟩
          | @ok first rest _ hrest =>
            have hshorter := h.bump.length_le hrest hfirst
            obtain ⟨s, hsecond, hs⟩ := @ih _ _ (.right p op left :: fs) (11 - k) first k
              (by omega) hrest (hshorter.trans hlength)
            have hboth := hstart.trans (.head rfl hsecond)
            dsimp only
            generalize climb operand bound k first rest = r at hs
            cases hs with
            | error hi hm => exact ⟨_, hboth.tail rfl, .error hi hm⟩
            | @ok right rest' _ hrest' =>
              have hshortest := hrest.length_le hrest' hsecond
              obtain ⟨s, hthird, hs⟩ := @ih _ _ fs p (.binary op left right) limit hlimit hrest'
                (hshortest.trans (hshorter.trans hlength))
              exact ⟨s, hboth.trans (.head rfl hthird), hs⟩

theorem reads_expression (hoperand : Reads ms d (.enter .prefixed) .value operand) :
    Reads ms d (.binary 0) .value (expression operand) := by
  intro fs c ts h
  obtain ⟨s, hfirst, hs⟩ := hoperand (.first 0 :: fs) c ts h
  have hstart : Steps ms ⟨c, d, .binary 0, fs⟩ s := .head rfl hfirst
  unfold expression
  generalize operand ts = r at hs
  cases hs with
  | error hi hm => exact ⟨_, hstart.tail rfl, .error hi hm⟩
  | ok hrest =>
    have hlimit : 11 + 0 = 11 := rfl
    obtain ⟨s, hmore, hs⟩ := steps_climb hoperand hlimit hrest le_rfl
    exact ⟨s, hstart.trans (.head rfl hmore), hs⟩

end

/-! ### Parentheses and calls -/

theorem reads_parenthesised {operand : Reader Expr}
    (hoperand : Reads ms d (.enter .prefixed) .value operand) :
    Reads ms d (.inside .parenthesised) .value (parenthesised operand) := by
  intro fs c ts h
  obtain ⟨s, hinside, hs⟩ := reads_expression hoperand (.closing :: fs) c ts h
  have hstart : Steps ms ⟨c, d, .inside .parenthesised, fs⟩ s := .head rfl hinside
  unfold parenthesised
  generalize expression operand ts = r at hs
  cases hs with
  | error hi hm => exact ⟨_, hstart.tail rfl, .error hi hm⟩
  | @ok e rest _ hrest =>
    dsimp only
    cases hclose : Parser.expect .rightParen rest with
    | error f =>
      obtain ⟨m, hm, hf, hstep⟩ := expect_of_error hrest hclose
      exact ⟨_, hstart.tail (hstep _ _ _ _), .error hf hm⟩
    | ok rest' =>
      obtain ⟨hrest', hstep⟩ := expect_of_ok hrest hclose
      exact ⟨_, hstart.tail (hstep _ _ _ _), .ok hrest'⟩

/-- Without a comma the argument that has been read must be the last. -/
theorem moreArguments_of_unclosed {argument : Reader Expr} {e : Expr} {f : Failure}
    (h : argument ts = .ok (e, rest)) (hcomma : rest.head? ≠ some .comma)
    (hclose : Parser.expect .rightParen rest = .error f) (bound : List Token) :
    moreArguments argument bound ts = .error f := by
  unfold moreArguments
  rw [h]
  cases bound with
  | nil => simp only [hclose]
  | cons b bound =>
    cases rest with
    | nil => simp only [hclose]
    | cons t rest =>
      cases t with
      | comma => exact absurd rfl hcomma
      | _ => simp only [hclose]

theorem steps_last {argument : Reader Expr} {e : Expr} {before : List Expr}
    (hr : argument ts = .ok (e, rest)) (h : At ms c rest) (hcomma : rest.head? ≠ some .comma)
    (bound : List Token) :
    ∃ s, Steps ms ⟨c, d, .value e, .argument before :: fs⟩ s ∧
      Yields ms d fs (fun args => .values (before ++ args))
        (moreArguments argument bound ts) s := by
  obtain ⟨m, hm, htoken⟩ := h.exists_mark
  have hstep : step ms ⟨c, d, .value e, .argument before :: fs⟩ =
      expect ms (some .rightParen) ⟨c, d, .value e, fs⟩ ⟨c, d, .values (before ++ [e]), fs⟩ := by
    simp only [step, hm, Option.bind_some, htoken, if_neg hcomma]
  cases hclose : Parser.expect .rightParen rest with
  | error f =>
    rw [moreArguments_of_unclosed hr hcomma hclose]
    obtain ⟨m, hm, hf, hfault⟩ := expect_of_error h hclose
    exact ⟨_, .single (hstep.trans (hfault _ _ _ _)), .error hf hm⟩
  | ok rest' =>
    obtain ⟨hrest, hpast⟩ := expect_of_ok h hclose
    obtain rfl := expect_eq_ok_iff.mp hclose
    rw [moreArguments_of_last hr]
    exact ⟨_, .single (hstep.trans (hpast _ _ _ _)), @Yields.ok _ _ _ _ _ [e] _ _ hrest⟩

/-- The arguments that have been read stand in the open call. -/
theorem steps_moreArguments {argument : Reader Expr}
    (hargument : Reads ms d (.binary 0) .value argument) {bound : List Token}
    (before : List Expr) (h : At ms c ts) (hbound : ts.length ≤ bound.length) :
    ∃ s, Steps ms ⟨c, d, .binary 0, .argument before :: fs⟩ s ∧
      Yields ms d fs (fun args => .values (before ++ args))
        (moreArguments argument bound ts) s := by
  induction hn : ts.length using Nat.strong_induction_on generalizing bound before c ts with
  | _ n ih =>
    subst hn
    obtain ⟨s, hfirst, hs⟩ := hargument (.argument before :: fs) c ts h
    generalize hr : argument ts = r at hs
    cases hs with
    | error hi hm =>
      rw [moreArguments_of_error hr]
      exact ⟨_, hfirst.tail rfl, .error hi hm⟩
    | @ok e rest c' hrest =>
      by_cases hcomma : rest.head? = some .comma
      · obtain ⟨rest', rfl⟩ := List.head?_eq_some_iff.mp hcomma
        have hlength := h.length_le hrest hfirst
        have hshorter : rest'.length < ts.length := Nat.lt_of_succ_le hlength
        have hpos := hshorter.trans_le hbound
        obtain ⟨b, bound, rfl⟩ := List.exists_cons_of_length_pos (Nat.zero_lt_of_lt hpos)
        obtain ⟨m, hm, htoken⟩ := hrest.exists_mark
        have hstep : step ms ⟨c', d, .value e, .argument before :: fs⟩ =
            some ⟨bump ms c', d, .binary 0, .argument (before ++ [e]) :: fs⟩ := by
          simp [step, hm, htoken]
        obtain ⟨s, hmore, hs⟩ := ih rest'.length hshorter (before ++ [e]) hrest.bump
          (Nat.le_of_lt_succ hpos) rfl
        have hboth := hfirst.trans (.head hstep hmore)
        generalize hothers : moreArguments argument bound rest' = r at hs
        cases hs with
        | error hi hm =>
          rw [moreArguments_of_comma_error hr b hothers]
          exact ⟨_, hboth, .error hi hm⟩
        | @ok others _ _ hrest' =>
          rw [moreArguments_of_comma hr b hothers]
          rw [List.append_assoc, List.singleton_append] at hboth
          exact ⟨_, hboth, @Yields.ok _ _ _ _ _ (e :: others) _ _ hrest'⟩
      · obtain ⟨s, hlast, hs⟩ := steps_last hr hrest hcomma bound
        exact ⟨s, hfirst.trans hlast, hs⟩

theorem reads_arguments {argument : Reader Expr}
    (hargument : Reads ms d (.binary 0) .value argument) :
    Reads ms d (.inside .arguments) .values (arguments argument) := by
  intro fs c ts h
  obtain ⟨m, hm, htoken⟩ := h.exists_mark
  unfold arguments
  split
  next rest =>
    refine ⟨_, .single ?_, .ok h.bump⟩
    simp [step, hm, htoken]
  next hclose =>
    have hhead : ts.head? ≠ some .rightParen := by
      intro hhead
      obtain ⟨tail, htail⟩ := List.head?_eq_some_iff.mp hhead
      exact hclose tail htail
    have hstep : step ms ⟨c, d, .inside .arguments, fs⟩ =
        some ⟨c, d, .binary 0, .argument [] :: fs⟩ := by
      simp [step, hm, htoken, hhead]
    obtain ⟨s, hmore, hs⟩ := steps_moreArguments hargument [] h le_rfl
    exact ⟨s, .head hstep hmore, hs⟩

theorem reads_call {inner : Option (Reader (List Expr))} {name : String} {callee : Callee}
    {start : List Token} {i : Nat} {m : Mark} (hm : ms[i]? = some m) (hstart : At ms i start)
    (hcallee : Callee.ofName? name = some callee)
    (hinner : Reads ms d (.enter .arguments) .values (nested inner)) :
    Reads ms d (.call name callee m.start) .value (call inner name start) := by
  intro fs c ts h
  unfold call
  rw [hcallee]
  dsimp only
  cases hopen : Parser.expect .leftParen ts with
  | error f =>
    obtain ⟨m, hm, hf, hstep⟩ := expect_of_error h hopen
    exact ⟨_, .single (hstep _ _ _ _), .error hf hm⟩
  | ok rest =>
    obtain ⟨hrest, hstep⟩ := expect_of_ok h hopen
    obtain ⟨s, hargs, hs⟩ := hinner (.given name callee m.start :: fs) _ _ hrest
    have hcall : Steps ms ⟨c, d, .call name callee m.start, fs⟩ s := .head (hstep _ _ _ _) hargs
    dsimp only
    generalize nested inner rest = r at hs
    cases hs with
    | error hi hm => exact ⟨_, hcall.tail rfl, .error hi hm⟩
    | @ok args rest' c' hrest' =>
      dsimp only
      cases hbuild : callee.build? args with
      | none =>
        refine ⟨⟨c', d, _, fs⟩, hcall.tail ?_, .error hstart hm⟩
        simp only [step, apply, hbuild]
      | some e =>
        refine ⟨⟨c', d, _, fs⟩, hcall.tail ?_, .ok hrest'⟩
        simp only [step, apply, hbuild]

/-! ### Operands -/

/-- At depth `d` the parser has a budget of `256 - d` left. -/
theorem reads_inner {α : Type} {ret : α → Control} {n : Nat} {body : Body}
    (read : Reader Expr → Reader α) (hn : d + n = budget)
    (hread : ∀ m < n, d + 1 + m = budget →
      Reads ms (d + 1) (.inside body) ret (read (operand m)))
    (hret : ∀ fs a c, step ms ⟨c, d + 1, ret a, .nested :: fs⟩ = some ⟨c, d, ret a, fs⟩) :
    Reads ms d (.enter body) ret (nested ((inner? n).map read)) := by
  cases n with
  | zero => exact reads_nested (fun _ => hn.ge) nofun hret
  | succ m =>
    refine reads_nested nofun ?_ hret
    rintro _ ⟨⟩
    exact ⟨by omega, hread m m.lt_succ_self (by omega)⟩

theorem primary_of_callee {name : String} {callee : Callee} {start stop : Nat}
    (h : Callee.ofName? name = some callee) :
    primary ⟨some (.ident name), start, stop⟩ = .call name callee start := by
  simp only [primary, h]

theorem primary_of_unknown {name : String} {start stop : Nat} (h : Callee.ofName? name = none) :
    primary ⟨some (.ident name), start, stop⟩ = .failed ⟨start, .unknownFunction name⟩ := by
  simp only [primary, h]

theorem reads_primary {n : Nat} (hn : d + n = budget)
    (hoperand : ∀ m < n, ∀ d, d + m = budget →
      Reads ms d (.enter .prefixed) .value (operand m)) :
    Reads ms d .primary .value (Parser.primary (inner? n)) := by
  intro fs c ts h
  obtain ⟨m, hm, htoken⟩ := h.exists_mark
  have hstep : step ms ⟨c, d, .primary, fs⟩ = some ⟨bump ms c, d, primary m, fs⟩ := by
    simp only [step, hm, Option.map_some]
  obtain ⟨token, start, stop⟩ := m
  obtain rfl : token = ts.head? := htoken
  cases ts with
  | nil => exact ⟨_, .single hstep, .error h hm⟩
  | cons t ts =>
    cases t with
    | number | truth | reference => exact ⟨_, .single hstep, .ok h.bump⟩
    | ident name =>
      cases hcallee : Callee.ofName? name with
      | none =>
        have hread : Parser.primary (inner? n) (.ident name :: ts) =
            .error ⟨.unknownFunction name, .ident name :: ts⟩ := by
          simp only [Parser.primary, call, hcallee]
        rw [List.head?_cons, primary_of_unknown hcallee] at hstep
        rw [hread]
        exact ⟨_, .single hstep, .error h hm⟩
      | some callee =>
        have hargs : Reads ms d (.enter .arguments) .values
            (nested ((inner? n).map fun operand => arguments (expression operand))) :=
          reads_inner _ hn (fun k hk hd => reads_arguments (reads_expression (hoperand k hk _ hd)))
            fun _ _ _ => rfl
        obtain ⟨s, hcall, hs⟩ := reads_call hm h hcallee hargs fs _ ts h.bump
        rw [List.head?_cons, primary_of_callee hcallee] at hstep
        exact ⟨s, .head hstep hcall, hs⟩
    | leftParen =>
      have hparens : Reads ms d (.enter .parenthesised) .value
          (nested ((inner? n).map parenthesised)) :=
        reads_inner _ hn (fun k hk hd => reads_parenthesised (hoperand k hk _ hd)) fun _ _ _ => rfl
      obtain ⟨s, hinside, hs⟩ := hparens fs _ ts h.bump
      exact ⟨s, hinside.head hstep, hs⟩
    | _ => exact ⟨_, .single hstep, .error h hm⟩

theorem operand_of_unsigned (h : ts.head?.bind Token.unary? = none) (n : Nat) :
    operand (n + 1) ts = Parser.primary (inner? n) ts := by
  cases ts with
  | nil => simp only [operand, Parser.primary]
  | cons t ts => exact operand_succ h n ts

theorem reads_operand (n : Nat) (hn : d + n = budget) :
    Reads ms d (.enter .prefixed) .value (operand n) := by
  induction n using Nat.strong_induction_on generalizing d with
  | _ n ih =>
    intro fs c ts h
    cases n with
    | zero =>
      obtain ⟨m, hm, -⟩ := h.exists_mark
      have hd : budget ≤ d := hn.ge
      refine ⟨⟨c, d, _, fs⟩, .single ?_, .error h hm⟩
      simp only [step, if_pos hd, hm, Option.map_some]
    | succ n =>
      obtain ⟨m, hm, htoken⟩ := h.exists_mark
      have henter : step ms ⟨c, d, .enter .prefixed, fs⟩ =
          some ⟨c, d + 1, .inside .prefixed, .nested :: fs⟩ := by
        simp only [step, if_neg (show ¬ budget ≤ d by omega)]
      cases hun : ts.head?.bind Token.unary? with
      | none =>
        have hinner : Reads ms (d + 1) .primary .value (Parser.primary (inner? n)) :=
          reads_primary (by omega) fun k hk d hd => ih k (by omega) hd
        have hstep : step ms ⟨c, d + 1, .inside .prefixed, .nested :: fs⟩ =
            some ⟨c, d + 1, .primary, .nested :: fs⟩ := by
          simp only [step, hm, Option.map_some, htoken, hun]
        obtain ⟨s, hread, hs⟩ := hinner (.nested :: fs) c ts h
        obtain ⟨s', hback, hs'⟩ := hs.nested fun _ _ => rfl
        rw [operand_of_unsigned hun]
        exact ⟨s', .head henter (.head hstep (hread.trans hback)), hs'⟩
      | some build =>
        obtain ⟨t, ht, hbuild⟩ := Option.bind_eq_some_iff.mp hun
        obtain ⟨rest, rfl⟩ := List.head?_eq_some_iff.mp ht
        have hstep : step ms ⟨c, d + 1, .inside .prefixed, .nested :: fs⟩ =
            some ⟨bump ms c, d + 1, .enter .prefixed, .sign build :: .nested :: fs⟩ := by
          simp only [step, hm, Option.map_some, htoken, hun]
        obtain ⟨s, hread, hs⟩ := ih n n.lt_succ_self (show d + 1 + n = budget by omega)
          (.sign build :: .nested :: fs) _ rest h.bump
        have hsigned : Steps ms ⟨c, d, .enter .prefixed, fs⟩ s := .head henter (.head hstep hread)
        simp only [operand, hbuild]
        generalize operand n rest = r at hs
        cases hs with
        | error hi hm => exact ⟨_, (hsigned.tail rfl).tail rfl, .error hi hm⟩
        | ok hrest => exact ⟨_, (hsigned.tail rfl).tail rfl, .ok hrest⟩

/-! ### Whole texts -/

theorem at_marks (text : String) (ls : List Lexeme) :
    At (marks text ls) 0 (ls.map Lexeme.token) := by
  rw [At, List.drop_zero, marks, List.map_append, List.map_map, List.map_map]
  rfl

/-- The parser names its fault by the tokens from it on, the machine by the byte where they
begin. -/
theorem ofText?_eq_error {text : String} {ls : List Lexeme} {f : Failure} {i : Nat} {m : Mark}
    (hls : Lexeme.ofText? text = .ok ls) (h : At (marks text ls) i f.rest)
    (hm : (marks text ls)[i]? = some m) (hparse : parse (ls.map Lexeme.token) = .error f) :
    Expr.ofText? text = .error ⟨m.start, f.fault⟩ := by
  have hlength := h.length
  simp only [marks, List.length_append, List.length_map, List.length_singleton] at hlength
  obtain rfl : i = ls.length - f.rest.length := by omega
  simp only [Expr.ofText?, hls, hparse]
  split
  next l ls' hdrop =>
    have hl : ls[ls.length - f.rest.length]? = some l := by rw [← List.head?_drop, hdrop]; rfl
    have hlt := (List.getElem?_eq_some_iff.mp hl).1
    rw [marks, List.getElem?_append_left (by simpa using hlt), List.getElem?_map, hl] at hm
    obtain rfl := Option.some.inj hm
    rfl
  next hdrop =>
    have hle := List.drop_eq_nil_iff.mp hdrop
    rw [marks, List.getElem?_append_right (by simpa using hle)] at hm
    obtain ⟨hlt, rfl⟩ := List.getElem?_eq_some_iff.mp hm
    simp

/-- The machine comes to its end with the expression that a text spells, or with its fault. -/
theorem steps_ofText? {text : String} {ls : List Lexeme} (hls : Lexeme.ofText? text = .ok ls) :
    ∃ s, Steps (marks text ls) start s ∧ s.frames = [] ∧ s.depth = 0 ∧
      s.control.outcome? = some (Expr.ofText? text) := by
  have hoperand : Reads (marks text ls) 0 (.enter .prefixed) .value (operand budget) :=
    reads_operand budget (Nat.zero_add _)
  obtain ⟨s, hsteps, hs⟩ := reads_expression hoperand [.whole] 0 _ (at_marks text ls)
  generalize hread : expression (operand budget) (ls.map Lexeme.token) = r at hs
  cases hs with
  | @error f m c i hi hm =>
    have hparse : parse (ls.map Lexeme.token) = .error f := by simp only [parse, hread]
    exact ⟨⟨c, 0, _, []⟩, hsteps.tail rfl, rfl, rfl,
      congrArg some (ofText?_eq_error hls hi hm hparse).symm⟩
  | @ok e rest c hrest =>
    obtain ⟨m, hm, htoken⟩ := hrest.exists_mark
    cases rest with
    | nil =>
      have hparse : parse (ls.map Lexeme.token) = .ok e := by simp only [parse, hread]
      have hend : step (marks text ls) ⟨c, 0, .value e, [.whole]⟩ =
          some ⟨bump (marks text ls) c, 0, .value e, []⟩ := by
        simp [step, expect, hm, htoken]
      exact ⟨_, hsteps.tail hend, rfl, rfl,
        congrArg some ((Expr.ofText?_eq_ok_iff hls).mpr hparse).symm⟩
    | cons t rest =>
      have hparse : parse (ls.map Lexeme.token) = .error ⟨.expected none (some t), t :: rest⟩ := by
        simp only [parse, hread]
      have hend : step (marks text ls) ⟨c, 0, .value e, [.whole]⟩ =
          some ⟨c, 0, .failed ⟨m.start, .expected none (some t)⟩, []⟩ := by
        simp [step, expect, hm, htoken]
      exact ⟨_, hsteps.tail hend, rfl, rfl,
        congrArg some (ofText?_eq_error hls hrest hm hparse).symm⟩

/-- Every text is read to its end, step by step, with the result of the parser.  On the way the
cursor stays on the tokens, and the calls that are open are bounded in number, whatever the text.
Each call for what is nested returns, with a result or a failure, to the calls that were open
before, and the depth is then what it was. -/
theorem reads_every_text (text : String) :
    match Lexeme.ofText? text with
    | .error e => Expr.ofText? text = .error e
    | .ok ls =>
      (∃ last, Steps (marks text ls) start last ∧ last.frames = [] ∧
        last.control.outcome? = some (Expr.ofText? text) ∧
        ∀ s, Steps (marks text ls) start s → Steps (marks text ls) s last) ∧
      ∀ s, Steps (marks text ls) start s →
        (step (marks text ls) s = none ↔ s.frames = []) ∧ Bounded (marks text ls) s ∧
        ∀ body, s.control = .enter body →
          ∃ s', Returns (marks text ls) s.frames s s' ∧ s'.depth = s.depth := by
  split
  next e he => simp only [Expr.ofText?, he]
  next ls hls =>
    have hstart : Orderly (marks text ls) start := .start (by simp [marks])
    obtain ⟨last, hlast, hclosed, -, houtcome⟩ := steps_ofText? hls
    have hend : ∀ s, Steps (marks text ls) start s → Steps (marks text ls) s last :=
      fun s hs => hs.to_end hlast ((hstart.steps hlast).step_eq_none_iff.mpr hclosed)
    refine ⟨⟨last, hlast, hclosed, houtcome, hend⟩, fun s hs => ?_⟩
    have horderly := hstart.steps hs
    refine ⟨horderly.step_eq_none_iff, horderly.bounded, fun body _ => ?_⟩
    have hresult := Control.isResult_of_outcome? houtcome
    obtain ⟨s', hreturns, hs'⟩ := exists_returns (hend s hs) hresult hclosed List.suffix_rfl
    have hdepth := (hstart.steps (hs.trans hs')).counted
    rw [hreturns.2.2, horderly.counted] at hdepth
    exact ⟨s', hreturns, hdepth.symm⟩

end SceneFormula.Parser.Machine
