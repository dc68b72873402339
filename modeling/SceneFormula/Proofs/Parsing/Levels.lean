import SceneFormula.Text.Parser
import Mathlib.Tactic

/-!
# Levels of operators

The parser climbs through the operators by comparing their levels.  The same reading can be had one
level after the other, each with a loop for its own operators only; this is the form that follows
the grammar.  The two agree on every list of tokens, also in the fault that they find, because the
operand to the right of an operator ends where no operator below its level follows.
-/

namespace SceneFormula

/-- The operator of level `k` that a token stands for. -/
def Token.atLevel? (k : Nat) (t : Token) : Option BinaryOp :=
  match t.binary? with
  | some (j, op) => if j = k then some op else none
  | none => none

theorem Token.atLevel?_eq_some_iff {t : Token} {k : Nat} {op : BinaryOp} :
    t.atLevel? k = some op ↔ t.binary? = some (k, op) := by
  rw [atLevel?]
  cases t.binary? with
  | none => simp
  | some p =>
    obtain ⟨j, op'⟩ := p
    by_cases hj : j = k <;> simp [hj]

namespace Parser

/-- Extends `left` by the operators of level `k`, with operands read by `operand`, for as long as
they follow one another.  The first list is at least as long as the tokens. -/
def chain (operand : Reader Expr) (k : Nat) : List Token → Expr → Reader Expr
  | _ :: bound, left, t :: ts =>
    match t.atLevel? k with
    | none => .ok (left, t :: ts)
    | some op =>
      match operand ts with
      | .error e => .error e
      | .ok (right, rest) => chain operand k bound (.binary op left right) rest
  | _, left, ts => .ok (left, ts)

/-- Reads operands joined by operators of level at most `k`. -/
def level (operand : Reader Expr) : Nat → Reader Expr
  | 0 => operand
  | k + 1 => fun ts =>
    match level operand k ts with
    | .error e => .error e
    | .ok (left, rest) => chain (level operand k) (k + 1) rest left rest

/-- Reads on at level `k`, after `left` has been read. -/
def extend (operand : Reader Expr) : Nat → Expr → Reader Expr
  | 0, left => fun ts => .ok (left, ts)
  | k + 1, left => fun ts => chain (level operand k) (k + 1) ts left ts

/-- Reads on at every level from 1 to `k`, after the operand `left` has been read. -/
def ascend (operand : Reader Expr) : Nat → Expr → Reader Expr
  | 0, left => fun ts => .ok (left, ts)
  | k + 1, left => fun ts =>
    match ascend operand k left ts with
    | .error e => .error e
    | .ok (left, rest) => extend operand (k + 1) left rest

variable {operand : Reader Expr}

theorem level_eq_ascend (k : Nat) (ts : List Token) :
    level operand k ts = match operand ts with
      | .error e => .error e
      | .ok (left, rest) => ascend operand k left rest := by
  induction k with
  | zero =>
    simp only [level]
    cases operand ts <;> rfl
  | succ k ih =>
    simp only [level, ih]
    cases operand ts <;> rfl

/-! ### Where a level stops -/

/-- No operator between two operands of level at most `k` comes next. -/
def Stops (k : Nat) (ts : List Token) : Prop :=
  ∀ t ∈ ts.head?, ∀ j op, t.binary? = some (j, op) → k < j

theorem Stops.mono {j k : Nat} {ts : List Token} (h : Stops k ts) (hjk : j ≤ k) : Stops j ts :=
  fun t ht i op hop => hjk.trans_lt (h t ht i op hop)

theorem stops_nil (k : Nat) : Stops k [] := by
  simp [Stops]

theorem stops_cons_of_none {t : Token} (h : t.binary? = none) (k : Nat) (ts : List Token) :
    Stops k (t :: ts) := by
  simp [Stops, h]

theorem stops_cons_of_some {t : Token} {j : Nat} {op : BinaryOp} (h : t.binary? = some (j, op))
    {k : Nat} (hk : k < j) (ts : List Token) : Stops k (t :: ts) := by
  simp [Stops, h, hk]

theorem atLevel?_of_stops {k : Nat} {t : Token} {ts : List Token} (h : Stops k (t :: ts)) :
    t.atLevel? k = none := by
  cases hop : t.atLevel? k with
  | none => rfl
  | some op => exact absurd (h t rfl k op (Token.atLevel?_eq_some_iff.mp hop)) k.lt_irrefl

/-- Every operator has a level of its own above 0. -/
theorem stops_zero (ts : List Token) : Stops 0 ts := by
  intro t _ j op hop
  cases t <;> simp only [Token.binary?, reduceCtorEq, Option.some.injEq, Prod.mk.injEq] at hop <;>
    omega

theorem extend_of_stops {k : Nat} {ts : List Token} (h : Stops k ts) (left : Expr) :
    extend operand k left ts = .ok (left, ts) := by
  cases k with
  | zero => rfl
  | succ k =>
    cases ts with
    | nil => rfl
    | cons t ts => simp only [extend, chain, atLevel?_of_stops h]

theorem ascend_of_stops {k : Nat} {ts : List Token} (h : Stops k ts) (left : Expr) :
    ascend operand k left ts = .ok (left, ts) := by
  induction k with
  | zero => rfl
  | succ k ih => simp only [ascend, ih (h.mono k.le_succ), extend_of_stops h]

/-! ### Enough bound -/

/-- What `read` leaves over is no longer than what it was given. -/
def Shortens (read : Reader Expr) : Prop :=
  ∀ ts e rest, read ts = .ok (e, rest) → rest.length ≤ ts.length

theorem chain_ok_cases {k : Nat} {b : Token} {bound : List Token} {left e : Expr} {t : Token}
    {ts rest : List Token} (h : chain operand k (b :: bound) left (t :: ts) = .ok (e, rest)) :
    (t.atLevel? k = none ∧ left = e ∧ t :: ts = rest) ∨
      ∃ op right mid, t.atLevel? k = some op ∧ operand ts = .ok (right, mid) ∧
        chain operand k bound (.binary op left right) mid = .ok (e, rest) := by
  simp only [chain] at h
  split at h
  next hop =>
    obtain ⟨rfl, rfl⟩ : left = e ∧ t :: ts = rest := by simpa using h
    exact .inl ⟨hop, rfl, rfl⟩
  next op hop =>
    split at h
    next => simp at h
    next right mid hright => exact .inr ⟨op, right, mid, hop, hright, h⟩

theorem shortens_chain (h : Shortens operand) {k : Nat} {bound : List Token} {left e : Expr}
    {ts rest : List Token} (hok : chain operand k bound left ts = .ok (e, rest)) :
    rest.length ≤ ts.length := by
  induction bound generalizing left ts with
  | nil =>
    obtain ⟨-, rfl⟩ : left = e ∧ ts = rest := by simpa [chain] using hok
    exact le_rfl
  | cons b bound ih =>
    cases ts with
    | nil =>
      obtain ⟨-, rfl⟩ : left = e ∧ [] = rest := by simpa [chain] using hok
      exact le_rfl
    | cons t ts =>
      rcases chain_ok_cases hok with ⟨-, -, rfl⟩ | ⟨op, right, mid, -, hright, hmid⟩
      · exact le_rfl
      · exact (ih hmid).trans ((h _ _ _ hright).trans (Nat.le_succ _))

theorem shortens_level (h : Shortens operand) (k : Nat) : Shortens (level operand k) := by
  induction k with
  | zero => exact h
  | succ k ih =>
    intro ts e rest hok
    simp only [level] at hok
    split at hok
    next => simp at hok
    next left mid hleft => exact (shortens_chain ih hok).trans (ih _ _ _ hleft)

/-- A chain reads the same with any bound that is long enough. -/
theorem chain_bound (h : Shortens operand) (k : Nat) {bound bound' : List Token} {left : Expr}
    {ts : List Token} (hb : ts.length ≤ bound.length) (hb' : ts.length ≤ bound'.length) :
    chain operand k bound left ts = chain operand k bound' left ts := by
  induction bound generalizing bound' left ts with
  | nil =>
    obtain rfl : ts = [] := List.length_eq_zero_iff.mp (Nat.le_zero.mp hb)
    cases bound' <;> rfl
  | cons b bound ih =>
    cases ts with
    | nil => cases bound' <;> rfl
    | cons t ts =>
      cases bound' with
      | nil => simp at hb'
      | cons b' bound' =>
        simp only [List.length_cons, Nat.add_le_add_iff_right] at hb hb'
        simp only [chain]
        split
        next => rfl
        next op hop =>
          cases hr : operand ts with
          | error f => rfl
          | ok r =>
            obtain ⟨right, rest⟩ := r
            have hlen := h _ _ _ hr
            exact ih (hlen.trans hb) (hlen.trans hb')

theorem extend_succ_cons {k : Nat} {t : Token} {op : BinaryOp} {left right : Expr}
    {ts rest : List Token} (h : Shortens operand) (hop : t.atLevel? (k + 1) = some op)
    (hr : level operand k ts = .ok (right, rest)) :
    extend operand (k + 1) left (t :: ts) =
      extend operand (k + 1) (.binary op left right) rest := by
  simp only [extend, chain, hop, hr]
  exact chain_bound (shortens_level h k) _ (shortens_level h k _ _ _ hr) le_rfl

/-- A chain that is long enough goes on until no operator of its level follows, and none of a
level below, if its operands end where none of a level below follows. -/
theorem stops_chain {k : Nat} (h : Shortens operand)
    (hstops : ∀ ts e rest, operand ts = .ok (e, rest) → Stops k rest) {bound : List Token}
    {left e : Expr} {ts rest : List Token} (hb : ts.length ≤ bound.length) (hts : Stops k ts)
    (hok : chain operand (k + 1) bound left ts = .ok (e, rest)) : Stops (k + 1) rest := by
  induction bound generalizing left ts with
  | nil =>
    obtain rfl : ts = [] := List.length_eq_zero_iff.mp (Nat.le_zero.mp hb)
    obtain ⟨-, rfl⟩ : left = e ∧ [] = rest := by simpa [chain] using hok
    exact stops_nil _
  | cons b bound ih =>
    cases ts with
    | nil =>
      obtain ⟨-, rfl⟩ : left = e ∧ [] = rest := by simpa [chain] using hok
      exact stops_nil _
    | cons t ts =>
      rcases chain_ok_cases hok with ⟨hop, -, rfl⟩ | ⟨op, right, mid, -, hright, hmid⟩
      · intro t' ht' j op hj
        obtain rfl : t = t' := by simpa using ht'
        have hlt := hts t rfl j op hj
        have hne : j ≠ k + 1 := by
          rintro rfl
          rw [Token.atLevel?_eq_some_iff.mpr hj] at hop
          cases hop
        omega
      · have hlen : mid.length ≤ bound.length := (h _ _ _ hright).trans (by simpa using hb)
        exact ih hlen (hstops _ _ _ hright) hmid

theorem stops_level (h : Shortens operand) {k : Nat} {ts rest : List Token} {e : Expr}
    (hok : level operand k ts = .ok (e, rest)) : Stops k rest := by
  induction k generalizing ts e rest with
  | zero => exact stops_zero rest
  | succ k ih =>
    simp only [level] at hok
    split at hok
    next => simp at hok
    next left mid hleft =>
      exact stops_chain (shortens_level h k) (fun _ _ _ => ih) le_rfl (ih hleft) hok

/-! ### Climbing -/

/-- An operator of a level up to `k` takes what its own level reads on its right, and reading then
goes on from the whole. -/
theorem ascend_cons (h : Shortens operand) {i k : Nat} (hik : i < k) {t : Token} {op : BinaryOp}
    (ht : t.binary? = some (i + 1, op)) (left : Expr) (ts : List Token) :
    ascend operand k left (t :: ts) = match level operand i ts with
      | .error e => .error e
      | .ok (right, rest) => ascend operand k (.binary op left right) rest := by
  induction k with
  | zero => simp at hik
  | succ k ih =>
    rcases Nat.lt_succ_iff_lt_or_eq.mp hik with hlt | rfl
    · simp only [ascend, ih hlt]
      cases level operand i ts <;> rfl
    · -- Below its own level the operator stops everything; at that level the chain takes it.
      have hstops : Stops i (t :: ts) := stops_cons_of_some ht i.lt_succ_self ts
      have hop : t.atLevel? (i + 1) = some op := Token.atLevel?_eq_some_iff.mpr ht
      simp only [ascend, ascend_of_stops hstops]
      cases hr : level operand i ts with
      | error f => simp only [extend, chain, hop, hr]
      | ok r =>
        obtain ⟨right, rest⟩ := r
        simp only [ascend_of_stops (stops_level h hr), extend_succ_cons h hop hr]

/-- Climbing goes through the levels one after the other. -/
theorem climb_eq_ascend (h : Shortens operand) (k : Nat) {bound : List Token} {left : Expr}
    {ts : List Token} (hb : ts.length ≤ bound.length) :
    climb operand bound (k + 1) left ts = ascend operand k left ts := by
  induction bound generalizing k left ts with
  | nil =>
    obtain rfl : ts = [] := List.length_eq_zero_iff.mp (Nat.le_zero.mp hb)
    exact (ascend_of_stops (stops_nil k) left).symm
  | cons b bound ih =>
    cases ts with
    | nil => exact (ascend_of_stops (stops_nil k) left).symm
    | cons t ts =>
      simp only [List.length_cons, Nat.add_le_add_iff_right] at hb
      rw [climb]
      split
      next ht => exact (ascend_of_stops (stops_cons_of_none ht k ts) left).symm
      next j op ht =>
        split
        next hj => exact (ascend_of_stops (stops_cons_of_some ht hj ts) left).symm
        next hj =>
          obtain ⟨i, rfl⟩ : ∃ i, j = i + 1 := by
            have hpos := stops_zero (t :: ts) t rfl j op ht
            exact Nat.exists_eq_succ_of_ne_zero hpos.ne'
          -- Both calls are on shorter lists, the one for the right operand and the one after it.
          rw [ascend_cons h (by omega) ht, level_eq_ascend]
          cases hfirst : operand ts with
          | error f => rfl
          | ok r =>
            obtain ⟨first, mid⟩ := r
            have hmid : mid.length ≤ bound.length := (h _ _ _ hfirst).trans hb
            simp only [ih i hmid]
            cases hright : ascend operand i first mid with
            | error f => rfl
            | ok r =>
              obtain ⟨right, rest⟩ := r
              have hlevel : level operand i ts = .ok (right, rest) := by
                simp only [level_eq_ascend, hfirst, hright]
              exact ih k ((shortens_level h i _ _ _ hlevel).trans hb)

/-- The parser reads an expression by its levels. -/
theorem expression_eq_level (h : Shortens operand) : expression operand = level operand 10 := by
  funext ts
  rw [level_eq_ascend, expression]
  cases operand ts with
  | error f => rfl
  | ok r => exact climb_eq_ascend h 10 le_rfl

end Parser

end SceneFormula
