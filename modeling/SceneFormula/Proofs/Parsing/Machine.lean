import SceneFormula.Text.Parser
import SceneFormula.Proofs.Lexing.Places

/-!
# The parser step by step

The parser as a machine: a cursor over the tokens of a text, a counter for the depth, what is to be
done next, and the calls that are open.  The cursor never leaves the tokens, since it stays where it
is at the end of the text.  An operator binds with a power, and the power of an open call says which
operators it may still take.
-/

namespace SceneFormula

/-- The operator between two operands that a token stands for, with the power by which it binds. -/
def Token.power? (t : Token) : Option (Nat × BinaryOp) :=
  t.binary?.map fun p => (11 - p.1, p.2)

def Token.isParen : Token → Bool
  | leftParen | rightParen => true
  | _ => false

/-- A call was given the wrong number of arguments. -/
def SyntaxFault.isCount : SyntaxFault → Bool
  | argumentCount _ _ _ => true
  | _ => false

namespace Parser.Machine

/-- What is read one unit deeper: an operand with the operators before it, what stands in
parentheses, or the arguments of a call. -/
inductive Body where
  | prefixed
  | parenthesised
  | arguments

/-- An open call, and what it does with the result that it waits for. -/
inductive Frame where
  /-- The whole text: its end comes next. -/
  | whole
  /-- Operators of more than this power: the result is the first operand. -/
  | first (power : Nat)
  /-- Operators of more than this power: the result is the right operand of one of them. -/
  | right (power : Nat) (op : BinaryOp) (left : Expr)
  /-- One unit of the depth: it is given back. -/
  | nested
  /-- An operator before its operand. -/
  | sign (build : Expr → Expr)
  /-- Parentheses, which are to be closed. -/
  | closing
  /-- A call, whose name stands at byte `start`: the results are its arguments. -/
  | given (name : String) (callee : Callee) (start : Nat)
  /-- Arguments: the result is the one after `before`. -/
  | argument (before : List Expr)

/-- What is to be done next. -/
inductive Control where
  /-- Read operands joined by operators of more than this power. -/
  | binary (power : Nat)
  /-- Read on after `left` has been read. -/
  | climb (power : Nat) (left : Expr)
  /-- Go one unit deeper. -/
  | enter (body : Body)
  | inside (body : Body)
  | primary
  | call (name : String) (callee : Callee) (start : Nat)
  /-- Return to the last call that is open. -/
  | value (e : Expr)
  | values (es : List Expr)
  | failed (e : SyntaxError)

/-- A result is returned. -/
def Control.isResult : Control → Bool
  | value _ | values _ | failed _ => true
  | _ => false

structure State where
  cursor : Nat
  depth : Nat
  control : Control
  frames : List Frame

def start : State := ⟨0, 0, .binary 0, [.whole]⟩

/-- The place after a token; there is none after the end of the text. -/
def bump (ms : List Mark) (c : Nat) : Nat :=
  if c + 1 < ms.length then c + 1 else c

/-- Goes past the token that is wanted, into the state `next`; another token is at fault. -/
def expect (ms : List Mark) (wanted : Option Token) (s next : State) : Option State :=
  ms[s.cursor]?.map fun m =>
    if m.token = wanted then { next with cursor := bump ms s.cursor }
    else { s with control := .failed ⟨m.start, .expected wanted m.token⟩ }

/-- What a token does where an operand begins. -/
def primary (m : Mark) : Control :=
  match m.token with
  | some (.number n) => .value (.number n)
  | some (.truth b) => .value (.number b.toInt64)
  | some (.reference id) => .value (.var id)
  | some (.ident name) =>
    match Callee.ofName? name with
    | some callee => .call name callee m.start
    | none => .failed ⟨m.start, .unknownFunction name⟩
  | some .leftParen => .enter .parenthesised
  | found => .failed ⟨m.start, .unexpected found⟩

/-- What a call does with its arguments. -/
def apply (name : String) (callee : Callee) (start : Nat) (args : List Expr) : Control :=
  match callee.build? args with
  | some e => .value e
  | none => .failed ⟨start, .argumentCount name callee.arity args.length⟩

/-- One step.  There is none once no call is open; none either if the result does not suit the open
call, or if a token is asked for where there is none. -/
def step (ms : List Mark) (s : State) : Option State :=
  match s.control, s.frames with
  | .binary p, fs => some { s with control := .enter .prefixed, frames := .first p :: fs }
  | .climb p left, fs =>
    ms[s.cursor]?.map fun m =>
      match m.token.bind Token.power? with
      | some (q, op) =>
        if q ≤ p then { s with control := .value left }
        else ⟨bump ms s.cursor, s.depth, .binary q, .right p op left :: fs⟩
      | none => { s with control := .value left }
  | .enter body, fs =>
    if budget ≤ s.depth then
      ms[s.cursor]?.map fun m => { s with control := .failed ⟨m.start, .nestedTooDeeply⟩ }
    else some ⟨s.cursor, s.depth + 1, .inside body, .nested :: fs⟩
  | .inside .prefixed, fs =>
    ms[s.cursor]?.map fun m =>
      match m.token.bind Token.unary? with
      | some build => ⟨bump ms s.cursor, s.depth, .enter .prefixed, .sign build :: fs⟩
      | none => { s with control := .primary }
  | .inside .parenthesised, fs => some { s with control := .binary 0, frames := .closing :: fs }
  | .inside .arguments, fs =>
    ms[s.cursor]?.map fun m =>
      if m.token = some .rightParen then
        { s with cursor := bump ms s.cursor, control := .values [] }
      else { s with control := .binary 0, frames := .argument [] :: fs }
  | .primary, _ =>
    ms[s.cursor]?.map fun m => { s with cursor := bump ms s.cursor, control := primary m }
  | .call name callee start, fs =>
    expect ms (some .leftParen) s
      { s with control := .enter .arguments, frames := .given name callee start :: fs }
  | .value _, .whole :: fs => expect ms none { s with frames := fs } { s with frames := fs }
  | .value e, .first p :: fs => some { s with control := .climb p e, frames := fs }
  | .value e, .right p op left :: fs =>
    some { s with control := .climb p (.binary op left e), frames := fs }
  | .value e, .sign build :: fs => some { s with control := .value (build e), frames := fs }
  | .value _, .closing :: fs =>
    expect ms (some .rightParen) { s with frames := fs } { s with frames := fs }
  | .value e, .argument before :: fs =>
    ms[s.cursor]?.bind fun m =>
      if m.token = some .comma then
        some ⟨bump ms s.cursor, s.depth, .binary 0, .argument (before ++ [e]) :: fs⟩
      else
        expect ms (some .rightParen) { s with frames := fs }
          { s with control := .values (before ++ [e]), frames := fs }
  | .values args, .given name callee start :: fs =>
    some { s with control := apply name callee start args, frames := fs }
  | .value _, .nested :: fs | .values _, .nested :: fs | .failed _, .nested :: fs =>
    some { s with depth := s.depth - 1, frames := fs }
  | .failed _, _ :: fs => some { s with frames := fs }
  | _, _ => none

/-- Any number of steps. -/
abbrev Steps (ms : List Mark) : State → State → Prop :=
  Relation.ReflTransGen fun s s' => step ms s = some s'

/-! ### What a step can do -/

variable {ms : List Mark} {c : Nat}

theorem le_bump : c ≤ bump ms c := by
  unfold bump
  split <;> omega

theorem bump_lt (h : c < ms.length) : bump ms c < ms.length := by
  unfold bump
  split <;> omega

/-- What a step changes.  A fault is found at the token under the cursor, or in the number of
arguments of a call. -/
inductive Step (ms : List Mark) : State → State → Prop
  | binary {c d p fs} : Step ms ⟨c, d, .binary p, fs⟩ ⟨c, d, .enter .prefixed, .first p :: fs⟩
  | climb {c d p left fs m q op} (hm : ms[c]? = some m)
      (hop : m.token.bind Token.power? = some (q, op)) (hq : p < q) :
      Step ms ⟨c, d, .climb p left, fs⟩ ⟨bump ms c, d, .binary q, .right p op left :: fs⟩
  | stop {c d p left fs m} (hm : ms[c]? = some m) :
      Step ms ⟨c, d, .climb p left, fs⟩ ⟨c, d, .value left, fs⟩
  | enter {c d body fs} (hd : d < budget) :
      Step ms ⟨c, d, .enter body, fs⟩ ⟨c, d + 1, .inside body, .nested :: fs⟩
  | sign {c d fs m build} (hm : ms[c]? = some m)
      (hsign : m.token.bind Token.unary? = some build) :
      Step ms ⟨c, d, .inside .prefixed, fs⟩
        ⟨bump ms c, d, .enter .prefixed, .sign build :: fs⟩
  | unsigned {c d fs m} (hm : ms[c]? = some m) :
      Step ms ⟨c, d, .inside .prefixed, fs⟩ ⟨c, d, .primary, fs⟩
  | parenthesised {c d fs} :
      Step ms ⟨c, d, .inside .parenthesised, fs⟩ ⟨c, d, .binary 0, .closing :: fs⟩
  | empty {c d fs m} (hm : ms[c]? = some m) (ht : m.token = some .rightParen) :
      Step ms ⟨c, d, .inside .arguments, fs⟩ ⟨bump ms c, d, .values [], fs⟩
  | arguments {c d fs m} (hm : ms[c]? = some m) :
      Step ms ⟨c, d, .inside .arguments, fs⟩ ⟨c, d, .binary 0, .argument [] :: fs⟩
  | leaf {c d fs m t e} (hm : ms[c]? = some m) (ht : m.token = some t)
      (hparen : t.isParen = false) :
      Step ms ⟨c, d, .primary, fs⟩ ⟨bump ms c, d, .value e, fs⟩
  | name {c d fs m name callee} (hm : ms[c]? = some m) (ht : m.token = some (.ident name)) :
      Step ms ⟨c, d, .primary, fs⟩ ⟨bump ms c, d, .call name callee m.start, fs⟩
  | paren {c d fs m} (hm : ms[c]? = some m) (ht : m.token = some .leftParen) :
      Step ms ⟨c, d, .primary, fs⟩ ⟨bump ms c, d, .enter .parenthesised, fs⟩
  | call {c d name callee start fs m} (hm : ms[c]? = some m) (ht : m.token = some .leftParen) :
      Step ms ⟨c, d, .call name callee start, fs⟩
        ⟨bump ms c, d, .enter .arguments, .given name callee start :: fs⟩
  | whole {c d e fs m} (hm : ms[c]? = some m) (ht : m.token = none) :
      Step ms ⟨c, d, .value e, .whole :: fs⟩ ⟨bump ms c, d, .value e, fs⟩
  | first {c d e p fs} : Step ms ⟨c, d, .value e, .first p :: fs⟩ ⟨c, d, .climb p e, fs⟩
  | right {c d e p op left fs} :
      Step ms ⟨c, d, .value e, .right p op left :: fs⟩ ⟨c, d, .climb p (.binary op left e), fs⟩
  | signed {c d e build fs} :
      Step ms ⟨c, d, .value e, .sign build :: fs⟩ ⟨c, d, .value (build e), fs⟩
  | closing {c d e fs m} (hm : ms[c]? = some m) (ht : m.token = some .rightParen) :
      Step ms ⟨c, d, .value e, .closing :: fs⟩ ⟨bump ms c, d, .value e, fs⟩
  | comma {c d e before fs m} (hm : ms[c]? = some m) (ht : m.token = some .comma) :
      Step ms ⟨c, d, .value e, .argument before :: fs⟩
        ⟨bump ms c, d, .binary 0, .argument (before ++ [e]) :: fs⟩
  | last {c d e before fs m} (hm : ms[c]? = some m) (ht : m.token = some .rightParen) :
      Step ms ⟨c, d, .value e, .argument before :: fs⟩
        ⟨bump ms c, d, .values (before ++ [e]), fs⟩
  | value {c d e fs} : Step ms ⟨c, d, .value e, .nested :: fs⟩ ⟨c, d - 1, .value e, fs⟩
  | values {c d es fs} : Step ms ⟨c, d, .values es, .nested :: fs⟩ ⟨c, d - 1, .values es, fs⟩
  | failed {c d e fs} : Step ms ⟨c, d, .failed e, .nested :: fs⟩ ⟨c, d - 1, .failed e, fs⟩
  | unwind {c d e f fs} (hf : f ≠ .nested) :
      Step ms ⟨c, d, .failed e, f :: fs⟩ ⟨c, d, .failed e, fs⟩
  | apply {c d args name callee start fs e} :
      Step ms ⟨c, d, .values args, .given name callee start :: fs⟩ ⟨c, d, .value e, fs⟩
  | count {c d args name callee start fs} :
      Step ms ⟨c, d, .values args, .given name callee start :: fs⟩
        ⟨c, d, .failed ⟨start, .argumentCount name callee.arity args.length⟩, fs⟩
  | fault {c c' d control fs m f} (hm : ms[c]? = some m) (hc : c' = c ∨ c' = bump ms c)
      (hcontrol : control.isResult = false) (hf : f.isCount = false) :
      Step ms ⟨c, d, control, fs⟩ ⟨c', d, .failed ⟨m.start, f⟩, fs⟩
  | faultAfter {c d e frame fs m f} (hm : ms[c]? = some m) (hframe : frame ≠ .nested)
      (hf : f.isCount = false) :
      Step ms ⟨c, d, .value e, frame :: fs⟩ ⟨c, d, .failed ⟨m.start, f⟩, fs⟩

theorem expect_cases {wanted : Option Token} {s next s' : State}
    (h : expect ms wanted s next = some s') :
    ∃ m, ms[s.cursor]? = some m ∧
      (m.token = wanted ∧ { next with cursor := bump ms s.cursor } = s' ∨
        { s with control := .failed ⟨m.start, .expected wanted m.token⟩ } = s') := by
  obtain ⟨m, hm, hs'⟩ := Option.map_eq_some_iff.mp h
  refine ⟨m, hm, ?_⟩
  split at hs'
  next ht => exact .inl ⟨ht, hs'⟩
  next => exact .inr hs'

theorem step_primary {c d : Nat} {fs : List Frame} {m : Mark} (hm : ms[c]? = some m) :
    Step ms ⟨c, d, .primary, fs⟩ ⟨bump ms c, d, primary m, fs⟩ := by
  have hfault : ∀ f : SyntaxFault, f.isCount = false →
      Step ms ⟨c, d, .primary, fs⟩ ⟨bump ms c, d, .failed ⟨m.start, f⟩, fs⟩ :=
    fun f hf => .fault hm (.inr rfl) rfl hf
  obtain ⟨t, i, j⟩ := m
  cases t with
  | none => exact hfault _ rfl
  | some t =>
    cases t with
    | number | truth | reference => exact .leaf hm rfl rfl
    | ident name =>
      unfold primary
      dsimp only
      split
      · exact .name hm rfl
      · exact hfault _ rfl
    | leftParen => exact .paren hm rfl
    | _ => exact hfault _ rfl

theorem step_cases {s s' : State} (h : step ms s = some s') : Step ms s s' := by
  obtain ⟨c, d, control, fs⟩ := s
  cases control with
  | binary p =>
    obtain rfl := Option.some.inj h
    exact .binary
  | climb p left =>
    obtain ⟨m, hm, rfl⟩ := Option.map_eq_some_iff.mp h
    dsimp only
    split
    next q op hop =>
      split
      next => exact .stop hm
      next hq => exact .climb hm hop (not_le.mp hq)
    next => exact .stop hm
  | enter body =>
    simp only [step] at h
    split at h
    next hd =>
      obtain ⟨m, hm, rfl⟩ := Option.map_eq_some_iff.mp h
      exact .fault hm (.inl rfl) rfl rfl
    next hd =>
      obtain rfl := Option.some.inj h
      exact .enter (not_le.mp hd)
  | inside body =>
    cases body with
    | prefixed =>
      obtain ⟨m, hm, rfl⟩ := Option.map_eq_some_iff.mp h
      dsimp only
      split
      next hsign => exact .sign hm hsign
      next => exact .unsigned hm
    | parenthesised =>
      obtain rfl := Option.some.inj h
      exact .parenthesised
    | arguments =>
      obtain ⟨m, hm, rfl⟩ := Option.map_eq_some_iff.mp h
      dsimp only
      split
      next ht => exact .empty hm ht
      next => exact .arguments hm
  | primary =>
    obtain ⟨m, hm, rfl⟩ := Option.map_eq_some_iff.mp h
    exact step_primary hm
  | call name callee start =>
    obtain ⟨m, hm, ⟨ht, rfl⟩ | rfl⟩ := expect_cases h
    · exact .call hm ht
    · exact .fault hm (.inl rfl) rfl rfl
  | value e =>
    cases fs with
    | nil => cases h
    | cons f fs =>
      cases f with
      | whole =>
        obtain ⟨m, hm, ⟨ht, rfl⟩ | rfl⟩ := expect_cases h
        · exact .whole hm ht
        · exact .faultAfter hm nofun rfl
      | first p =>
        obtain rfl := Option.some.inj h
        exact .first
      | right p op left =>
        obtain rfl := Option.some.inj h
        exact .right
      | nested =>
        obtain rfl := Option.some.inj h
        exact .value
      | sign build =>
        obtain rfl := Option.some.inj h
        exact .signed
      | closing =>
        obtain ⟨m, hm, ⟨ht, rfl⟩ | rfl⟩ := expect_cases h
        · exact .closing hm ht
        · exact .faultAfter hm nofun rfl
      | given => cases h
      | argument before =>
        obtain ⟨m, hm, h⟩ := Option.bind_eq_some_iff.mp h
        split at h
        next ht =>
          obtain rfl := Option.some.inj h
          exact .comma hm ht
        next =>
          obtain ⟨m, hm, ⟨ht, rfl⟩ | rfl⟩ := expect_cases h
          · exact .last hm ht
          · exact .faultAfter hm nofun rfl
  | values args =>
    cases fs with
    | nil => cases h
    | cons f fs =>
      cases f with
      | nested =>
        obtain rfl := Option.some.inj h
        exact .values
      | given name callee start =>
        obtain rfl := Option.some.inj h
        dsimp only
        unfold apply
        split
        · exact .apply
        · exact .count
      | _ => cases h
  | failed e =>
    cases fs with
    | nil => cases h
    | cons f fs =>
      cases f with
      | nested =>
        obtain rfl := Option.some.inj h
        exact .failed
      | _ =>
        obtain rfl := Option.some.inj h
        exact .unwind nofun

end Parser.Machine

end SceneFormula
