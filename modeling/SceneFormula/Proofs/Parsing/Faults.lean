import SceneFormula.Proofs.Parsing.Execution

/-!
# Where a fault is decided

The machine looks at no token beyond its cursor, and the cursor does not go back.  So a fault stands
once the tokens up to the one at fault are known; only a wrong number of arguments is found later,
at the parenthesis that closes the call.
-/

namespace SceneFormula

/-- What the parser sees of a token: which one it is, and where it begins. -/
def Mark.head (m : Mark) : Option Token × Nat := (m.token, m.start)

/-- Only the last of the tokens is the end of the text. -/
def Ended (ms : List Mark) : Prop :=
  ∀ i m, ms[i]? = some m → (m.token = none ↔ i + 1 = ms.length)

theorem ended_marks (text : String) (ls : List Lexeme) : Ended (marks text ls) := by
  intro i m hm
  rw [marks] at hm ⊢
  simp only [List.length_append, List.length_map, List.length_singleton, Nat.add_right_cancel_iff]
  rcases lt_or_ge i ls.length with hlt | hge
  · rw [List.getElem?_append_left (by simpa using hlt), List.getElem?_map] at hm
    obtain ⟨l, -, rfl⟩ := Option.map_eq_some_iff.mp hm
    simp [Lexeme.mark, hlt.ne]
  · rw [List.getElem?_append_right (by simpa using hge)] at hm
    obtain ⟨hlt, rfl⟩ := List.getElem?_eq_some_iff.mp hm
    simp only [List.length_map, List.length_singleton] at hlt
    simp
    omega

/-- The places of the parentheses that are open after `c` tokens, the last one first. -/
def unclosed (ms : List Mark) : Nat → List Nat
  | 0 => []
  | c + 1 =>
    match ms[c]?.bind Mark.token with
    | some .leftParen => c :: unclosed ms c
    | some .rightParen => (unclosed ms c).tail
    | _ => unclosed ms c

/-- The token at place `j` closes the parenthesis at place `i`. -/
def Closes (ms : List Mark) (i j : Nat) : Prop :=
  ms[j]?.bind Mark.token = some .rightParen ∧ (unclosed ms j).head? = some i

namespace Parser.Machine

variable {ms ms' : List Mark} {s s' : State}

/-! ### What a step looks at -/

/-- The step does not depend on the tokens. -/
def Control.isQuiet : Control → Bool
  | values _ | failed _ => true
  | _ => false

theorem bump_eq {c : Nat} {m : Mark} (h : Ended ms) (hm : ms[c]? = some m) :
    bump ms c = if m.token = none then c else c + 1 := by
  have hlt := (List.getElem?_eq_some_iff.mp hm).1
  by_cases ht : m.token = none
  · have hlast := (h c m hm).mp ht
    rw [if_pos ht, bump, if_neg (by omega)]
  · have hlast := mt (h c m hm).mpr ht
    rw [if_neg ht, bump, if_pos (by omega)]

/-- A step depends only on the token under the cursor. -/
theorem step_congr (h : Ended ms) (h' : Ended ms')
    (hhead : ms[s.cursor]?.map Mark.head = ms'[s.cursor]?.map Mark.head) :
    step ms s = step ms' s := by
  obtain ⟨c, d, control, fs⟩ := s
  cases hm : ms[c]? with
  | none =>
    have hm' : ms'[c]? = none := by simpa [hm, eq_comm] using hhead
    unfold step
    dsimp only
    split <;> simp only [expect, hm, hm', Option.map_none, Option.bind_none]
  | some m =>
    obtain ⟨m', hm', heq⟩ : ∃ m', ms'[c]? = some m' ∧ m'.head = m.head := by
      simpa [hm, eq_comm] using hhead
    have hbump : bump ms c = bump ms' c := by
      rw [bump_eq h hm, bump_eq h' hm', (Prod.mk.inj heq).1]
    obtain ⟨token, start, stop⟩ := m
    obtain ⟨token', start', stop'⟩ := m'
    obtain ⟨rfl, rfl⟩ : token' = token ∧ start' = start := Prod.mk.inj heq
    unfold step
    dsimp only
    split <;> simp only [expect, hm, hm', hbump, Option.map_some, Option.bind_some]
    -- Only an operand's first token is handed on whole; where it ends makes no difference.
    rfl

theorem step_of_isQuiet (hquiet : s.control.isQuiet = true) : step ms s = step ms' s := by
  obtain ⟨c, d, control, fs⟩ := s
  cases control with
  | values | failed =>
    cases fs with
    | nil => rfl
    | cons f fs => cases f <;> rfl
  | _ => cases hquiet

/-- Any number of steps that look at none but the first `n` tokens. -/
abbrev StepsWithin (ms : List Mark) (n : Nat) : State → State → Prop :=
  Relation.ReflTransGen fun s s' =>
    step ms s = some s' ∧ (s.cursor < n ∨ s.control.isQuiet = true)

/-- Texts that begin with the same tokens are read alike for as long as no others are looked at. -/
theorem StepsWithin.congr {n : Nat} (h : Ended ms) (h' : Ended ms')
    (hhead : (ms'.take n).map Mark.head = (ms.take n).map Mark.head)
    (hsteps : StepsWithin ms n s s') : Steps ms' s s' := by
  refine Relation.ReflTransGen.mono (fun a b hab => ?_) _ _ hsteps
  obtain ⟨hstep, hlt | hquiet⟩ := hab
  · have hcursor := congrArg (·[a.cursor]?) hhead
    simp only [List.getElem?_map, List.getElem?_take_of_lt hlt] at hcursor
    rw [← step_congr h h' hcursor.symm]
    exact hstep
  · rw [← step_of_isQuiet hquiet]
    exact hstep

theorem Steps.within {k : Nat} (h : Steps ms s s') (hk : s'.cursor ≤ k) :
    StepsWithin ms (k + 1) s s' := by
  induction h with
  | refl => exact .refl
  | @tail a b _ hstep ih =>
    have hle : a.cursor ≤ k := (Steps.cursor_le (.single hstep)).trans hk
    exact (ih hle).tail ⟨hstep, .inl (Nat.lt_succ_of_le hle)⟩

/-! ### Parentheses that are open -/

section

variable {c : Nat} {m : Mark} {t : Token}

theorem token_eq (hm : ms[c]? = some m) (ht : m.token = some t) :
    ms[c]?.bind Mark.token = some t := by
  rw [hm, Option.bind_some, ht]

theorem bump_of_some (h : Ended ms) (hm : ms[c]? = some m) (ht : m.token = some t) :
    bump ms c = c + 1 := by
  rw [bump_eq h hm, ht, if_neg nofun]

theorem unclosed_leftParen (hm : ms[c]? = some m) (ht : m.token = some .leftParen) :
    unclosed ms (c + 1) = c :: unclosed ms c := by
  simp only [unclosed, hm, Option.bind_some, ht]

theorem unclosed_rightParen (ht : ms[c]?.bind Mark.token = some .rightParen) :
    unclosed ms (c + 1) = (unclosed ms c).tail := by
  simp only [unclosed, ht]

theorem unclosed_of_not_isParen (hm : ms[c]? = some m) (ht : m.token = some t)
    (hparen : t.isParen = false) : unclosed ms (c + 1) = unclosed ms c := by
  simp only [unclosed, hm, Option.bind_some, ht]
  cases t <;> first | rfl | cases hparen

/-- Past a token that is no parenthesis the same parentheses are open. -/
theorem unclosed_bump (h : Ended ms) (hm : ms[c]? = some m) (ht : m.token = some t)
    (hparen : t.isParen = false) : unclosed ms (bump ms c) = unclosed ms c := by
  rw [bump_of_some h hm ht, unclosed_of_not_isParen hm ht hparen]

theorem isParen_of_power? {r : Nat × BinaryOp} (h : t.power? = some r) : t.isParen = false := by
  cases t <;> first | rfl | cases h

theorem isParen_of_unary? {build : Expr → Expr} (h : t.unary? = some build) :
    t.isParen = false := by
  cases t <;> first | rfl | cases h

end

def Frame.isParen : Frame → Bool
  | closing | given _ _ _ => true
  | _ => false

/-- `Opens ms fs is`: the calls `fs` wait for the parentheses at the places `is` to be closed. -/
inductive Opens (ms : List Mark) : List Frame → List Nat → Prop
  | nil : Opens ms [] []
  | closing {i fs is} (h : Opens ms fs is) : Opens ms (.closing :: fs) (i :: is)
  | given {i m name callee fs is} (hm : ms[i]? = some m) (ht : m.token = some (.ident name))
      (h : Opens ms fs is) : Opens ms (.given name callee m.start :: fs) ((i + 1) :: is)
  | other {f fs is} (hf : f.isParen = false) (h : Opens ms fs is) : Opens ms (f :: fs) is

theorem Opens.of_cons {f : Frame} {fs : List Frame} {is : List Nat} (h : Opens ms (f :: fs) is)
    (hf : f.isParen = false) : Opens ms fs is := by
  cases h with
  | closing | given => cases hf
  | other _ h => exact h

theorem Opens.tail_of_paren {f : Frame} {fs : List Frame} {is : List Nat}
    (h : Opens ms (f :: fs) is) (hf : f.isParen = true) : Opens ms fs is.tail := by
  cases h with
  | closing h | given _ _ h => exact h
  | other hother =>
    rw [hf] at hother
    cases hother

/-- The parentheses that are open before the cursor are those that the open calls wait for.  The
call for a parenthesis is opened one step after it, and that for arguments is left after its own. -/
def Tracks (ms : List Mark) (s : State) : Prop :=
  match s.control with
  | .failed _ => True
  | .values _ => ∃ j, s.cursor = j + 1 ∧ ms[j]?.bind Mark.token = some .rightParen ∧
      Opens ms s.frames (unclosed ms j)
  | .enter .parenthesised | .inside .parenthesised =>
    ∃ i is, unclosed ms s.cursor = i :: is ∧ Opens ms s.frames is
  | .call name _ start => ∃ i m, s.cursor = i + 1 ∧ ms[i]? = some m ∧
      m.token = some (.ident name) ∧ m.start = start ∧ Opens ms s.frames (unclosed ms s.cursor)
  | _ => Opens ms s.frames (unclosed ms s.cursor)

theorem Tracks.step (hended : Ended ms) (hs : Tracks ms s) (h : Step ms s s') : Tracks ms s' := by
  cases h with
  | binary | arguments => exact .other rfl hs
  | climb hm hop =>
    obtain ⟨t, ht, hop⟩ := Option.bind_eq_some_iff.mp hop
    have hsame := unclosed_bump hended hm ht (isParen_of_power? hop)
    exact .other rfl (hsame ▸ hs)
  | sign hm hsign =>
    obtain ⟨t, ht, hsign⟩ := Option.bind_eq_some_iff.mp hsign
    have hsame := unclosed_bump hended hm ht (isParen_of_unary? hsign)
    exact .other rfl (hsame ▸ hs)
  | stop | unsigned => exact hs
  | @enter c d body fs =>
    cases body with
    | prefixed | arguments => exact .other rfl hs
    | parenthesised =>
      obtain ⟨i, is, hplace, h⟩ := hs
      exact ⟨i, is, hplace, .other rfl h⟩
  | @parenthesised c d fs =>
    obtain ⟨i, is, hplace, h⟩ := hs
    change Opens ms (.closing :: fs) (unclosed ms c)
    exact hplace ▸ .closing h
  | @empty c d fs m hm ht =>
    exact ⟨c, bump_of_some hended hm ht, token_eq hm ht, hs⟩
  | @leaf c d fs m t e hm ht hparen =>
    change Opens ms fs (unclosed ms (bump ms c))
    rw [unclosed_bump hended hm ht hparen]
    exact hs
  | @name c d fs m name callee hm ht =>
    refine ⟨c, m, bump_of_some hended hm ht, hm, ht, rfl, ?_⟩
    change Opens ms fs (unclosed ms (bump ms c))
    rw [unclosed_bump hended hm ht rfl]
    exact hs
  | @paren c d fs m hm ht =>
    refine ⟨c, unclosed ms c, ?_, hs⟩
    change unclosed ms (bump ms c) = c :: unclosed ms c
    rw [bump_of_some hended hm ht, unclosed_leftParen hm ht]
  | @call c d name callee start fs m hm ht =>
    obtain ⟨i, m', rfl, hm', ht', rfl, h⟩ := hs
    change Opens ms _ (unclosed ms (bump ms (i + 1)))
    rw [bump_of_some hended hm ht, unclosed_leftParen hm ht]
    exact .given hm' ht' h
  | @whole c d e fs m hm ht =>
    change Opens ms fs (unclosed ms (bump ms c))
    rw [bump_eq hended hm, if_pos ht]
    exact Opens.of_cons hs rfl
  | first | right | signed | value => exact Opens.of_cons hs rfl
  | @closing c d e fs m hm ht =>
    change Opens ms fs (unclosed ms (bump ms c))
    rw [bump_of_some hended hm ht, unclosed_rightParen (token_eq hm ht)]
    exact Opens.tail_of_paren hs rfl
  | @comma c d e before fs m hm ht =>
    change Opens ms _ (unclosed ms (bump ms c))
    rw [unclosed_bump hended hm ht rfl]
    exact .other rfl (Opens.of_cons hs rfl)
  | @last c d e before fs m hm ht =>
    exact ⟨c, bump_of_some hended hm ht, token_eq hm ht, Opens.of_cons hs rfl⟩
  | values =>
    obtain ⟨j, hj, hclose, h⟩ := hs
    exact ⟨j, hj, hclose, h.of_cons rfl⟩
  | @apply c d args name callee start fs e =>
    obtain ⟨j, rfl, hclose, h⟩ := hs
    change Opens ms fs (unclosed ms (j + 1))
    rw [unclosed_rightParen hclose]
    exact h.tail_of_paren rfl
  | failed | unwind | count | fault | faultAfter => trivial

theorem Tracks.steps (hended : Ended ms) (h : Steps ms start s) : Tracks ms s := by
  induction h with
  | refl => exact .other rfl .nil
  | tail _ hstep ih => exact ih.step hended (step_cases hstep)

/-! ### Faults -/

/-- The tokens that are looked at end with a parenthesis once the arguments have been read. -/
theorem steps_values {args : List Expr} (hended : Ended ms) (h : Steps ms start s)
    (hargs : s.control = .values args) :
    ∃ j, s.cursor = j + 1 ∧ StepsWithin ms (j + 1) start s := by
  induction h generalizing args with
  | refl => cases hargs
  | @tail a b hsteps hstep ih =>
    cases step_cases hstep with
    | @empty c d fs m hm ht =>
      exact ⟨c, bump_of_some hended hm ht,
        (Steps.within hsteps le_rfl).tail ⟨hstep, .inl c.lt_succ_self⟩⟩
    | @last c d e before fs m hm ht =>
      exact ⟨c, bump_of_some hended hm ht,
        (Steps.within hsteps le_rfl).tail ⟨hstep, .inl c.lt_succ_self⟩⟩
    | values =>
      obtain ⟨j, hj, hwithin⟩ := ih rfl
      exact ⟨j, hj, hwithin.tail ⟨hstep, .inr rfl⟩⟩
    | _ => cases hargs

/-- A fault and the tokens that have been looked at when it is found: those up to the one at fault,
or for a wrong number of arguments those up to the parenthesis that closes the call. -/
inductive Decided (ms : List Mark) (s : State) : SyntaxError → Prop
  | token {k m f} (hm : ms[k]? = some m) (hf : f.isCount = false)
      (h : StepsWithin ms (k + 1) start s) : Decided ms s ⟨m.start, f⟩
  | count {k m j name wanted given} (hm : ms[k]? = some m) (ht : m.token = some (.ident name))
      (hcloses : Closes ms (k + 1) j) (h : StepsWithin ms (j + 1) start s) :
      Decided ms s ⟨m.start, .argumentCount name wanted given⟩

theorem Decided.tail {e : SyntaxError} (h : Decided ms s e) (hstep : step ms s = some s')
    (hquiet : s.control.isQuiet = true) : Decided ms s' e := by
  cases h with
  | token hm hf h => exact .token hm hf (h.tail ⟨hstep, .inr hquiet⟩)
  | count hm ht hcloses h => exact .count hm ht hcloses (h.tail ⟨hstep, .inr hquiet⟩)

theorem steps_failed {e : SyntaxError} (hended : Ended ms) (h : Steps ms start s)
    (hfailed : s.control = .failed e) : Decided ms s e := by
  induction h generalizing e with
  | refl => cases hfailed
  | @tail a b hsteps hstep ih =>
    cases step_cases hstep with
    | fault hm _ _ hf =>
      cases hfailed
      exact .token hm hf ((Steps.within hsteps le_rfl).tail ⟨hstep, .inl (Nat.lt_succ_self _)⟩)
    | faultAfter hm _ hf =>
      cases hfailed
      exact .token hm hf ((Steps.within hsteps le_rfl).tail ⟨hstep, .inl (Nat.lt_succ_self _)⟩)
    | count =>
      cases hfailed
      obtain ⟨j, hj, hclose, hopens⟩ := Tracks.steps hended hsteps
      obtain ⟨j', hj', hwithin⟩ := steps_values hended hsteps rfl
      obtain rfl : j' = j := by omega
      generalize hplaces : unclosed ms j' = is at hopens
      cases hopens with
      | given hm ht _ =>
        exact .count hm ht ⟨hclose, by rw [hplaces]; rfl⟩ (hwithin.tail ⟨hstep, .inr rfl⟩)
      | other hf => cases hf
    | failed | unwind =>
      cases hfailed
      exact (ih rfl).tail hstep rfl
    | _ => cases hfailed

/-- Two texts are read to the same end if one reading looks only at tokens that both begin with. -/
theorem ofText?_eq_of_within {text text' : String} {ls ls' : List Lexeme} {n : Nat}
    (hls' : Lexeme.ofText? text' = .ok ls')
    (hhead : ((marks text' ls').take n).map Mark.head = ((marks text ls).take n).map Mark.head)
    (h : StepsWithin (marks text ls) n start s) (hend : s.frames = [])
    (houtcome : s.control.outcome? = some (Expr.ofText? text)) :
    Expr.ofText? text' = Expr.ofText? text := by
  have hsteps : Steps (marks text' ls') start s :=
    h.congr (ended_marks text ls) (ended_marks text' ls') hhead
  have horderly : Orderly (marks text' ls') start := .start (by simp [marks])
  obtain ⟨last, hlast, hclosed, -, houtcome'⟩ := steps_ofText? hls'
  have hstop := (horderly.steps hsteps).step_eq_none_iff.mpr hend
  have hstop' := (horderly.steps hlast).step_eq_none_iff.mpr hclosed
  rcases (hsteps.to_end hlast hstop').cases_head with rfl | ⟨b, hb, -⟩
  · exact Option.some.inj (houtcome'.symm.trans houtcome)
  · rw [hstop] at hb
    cases hb

end Parser.Machine

open Parser.Machine

/-- A text that can be cut into tokens but is not read has its fault at one of its tokens, or at
its end.  No text that begins with the same tokens up to there is read either, and its fault is the
same.  A call with the wrong number of arguments is at fault at its name, whatever follows the
parenthesis that closes it. -/
theorem Expr.ofText?_error_decided {text : String} {ls : List Lexeme} {e : SyntaxError}
    (hls : Lexeme.ofText? text = .ok ls) (he : Expr.ofText? text = .error e) :
    ∃ k m, (marks text ls)[k]? = some m ∧ e.offset = m.start ∧
      match e.fault with
      | .argumentCount name _ _ =>
        m.token = some (.ident name) ∧ ∃ j, Closes (marks text ls) (k + 1) j ∧
          ∀ text' ls', Lexeme.ofText? text' = .ok ls' →
            ((marks text' ls').take (j + 1)).map Mark.head =
              ((marks text ls).take (j + 1)).map Mark.head →
            Expr.ofText? text' = .error e
      | _ =>
        ∀ text' ls', Lexeme.ofText? text' = .ok ls' →
          ((marks text' ls').take (k + 1)).map Mark.head =
            ((marks text ls).take (k + 1)).map Mark.head →
          Expr.ofText? text' = .error e := by
  obtain ⟨last, hlast, hclosed, -, houtcome⟩ := steps_ofText? hls
  have hfailed : last.control = .failed e := by
    rw [he] at houtcome
    cases hcontrol : last.control with
    | failed =>
      rw [hcontrol] at houtcome
      cases houtcome
      rfl
    | _ =>
      rw [hcontrol] at houtcome
      cases houtcome
  have hdecided := steps_failed (ended_marks text ls) hlast hfailed
  have hsame : ∀ {n}, StepsWithin (marks text ls) n start last →
      ∀ text' ls', Lexeme.ofText? text' = .ok ls' →
        ((marks text' ls').take n).map Mark.head = ((marks text ls).take n).map Mark.head →
        Expr.ofText? text' = .error e :=
    fun h text' ls' hls' hhead => (ofText?_eq_of_within hls' hhead h hclosed houtcome).trans he
  cases hdecided with
  | @token k m f hm hf h =>
    refine ⟨k, m, hm, rfl, ?_⟩
    cases f with
    | argumentCount => cases hf
    | _ => exact hsame h
  | @count k m j name wanted given hm ht hcloses h => exact ⟨k, m, hm, rfl, ht, j, hcloses, hsame h⟩

theorem Expr.ofText?_error_decided_max :
    ∃ ls k j, Lexeme.ofText? "max(1)+2" = .ok ls ∧ Closes (marks "max(1)+2" ls) (k + 1) j ∧
      ∀ text' ls', Lexeme.ofText? text' = .ok ls' →
        ((marks text' ls').take (j + 1)).map Mark.head =
          ((marks "max(1)+2" ls).take (j + 1)).map Mark.head →
        Expr.ofText? text' = .error ⟨0, .argumentCount "max" 2 1⟩ := by
  have hls : Lexeme.ofText? "max(1)+2" =
      .ok [⟨.ident "max", 0, 3⟩, ⟨.leftParen, 3, 4⟩, ⟨.number 1, 4, 5⟩, ⟨.rightParen, 5, 6⟩,
        ⟨.plus, 6, 7⟩, ⟨.number 2, 7, 8⟩] := by
    cbv
  have he : Expr.ofText? "max(1)+2" = .error ⟨0, .argumentCount "max" 2 1⟩ := by cbv
  obtain ⟨k, m, hm, hoffset, hname, j, hcloses, hsame⟩ := Expr.ofText?_error_decided hls he
  exact ⟨_, k, j, hls, hcloses, hsame⟩

end SceneFormula
