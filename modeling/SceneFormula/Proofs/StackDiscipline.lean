import SceneFormula.Proofs.Compilation

/-!
# Stack discipline

Code may be any list of instructions, also one that no formula compiles to.  How high the stack
stands after it can be counted without running it, and as long as no instruction fails the machine
agrees with the count.  So it is known beforehand which operators lack an operand; whatever else can
fail is a local without a fetch, a division by zero or a call.
-/

namespace SceneFormula

namespace Instruction

def arity : Instruction → Nat
  | binary _ => 2
  | unary _ => 1
  | _ => 0

/-- By how much an instruction raises the stack. -/
def effect : Instruction → Int
  | binary _ => -1
  | unary _ => 0
  | _ => 1

def callsHost : Instruction → Bool
  | var _ => true
  | slot _ _ => true
  | unary .random => true
  | _ => false

/-- An instruction makes a call: a local is asked for through the first fetch of its name. -/
inductive Makes (fetches : List Fetch) : Instruction → HostCall → Prop
  | var (id : String) : Makes fetches (.var id) (.var id)
  | slot {name : String} {index : UInt8} {f : Fetch}
      (hf : fetches.find? (·.name == name) = some f) :
      Makes fetches (.slot name index) (.slot f index)
  | random (x : Int64) : Makes fetches (.unary .random) (.random x)

end Instruction

/-- The height of the stack after code, counted without running it. -/
def staticHeight : List Instruction → Int
  | [] => 0
  | i :: code => i.effect + staticHeight code

theorem staticHeight_append (code more : List Instruction) :
    staticHeight (code ++ more) = staticHeight code + staticHeight more := by
  induction code with
  | nil => exact (Int.zero_add _).symm
  | cons i code ih =>
    rw [List.cons_append, staticHeight, staticHeight, ih, Int.add_assoc]

namespace Program

variable {σ : Type}

/-- An instruction does its work: from a stack and a state of the host it leads to others, and on
its way it makes calls. -/
inductive Succeeds (host : Host σ) (fetches : List Fetch) :
    Instruction → List Int64 → σ → List HostCall → List Int64 → σ → Prop
  | number (n : Int64) (stack : List Int64) (s : σ) :
      Succeeds host fetches (.number n) stack s [] (n :: stack) s
  | var {id : String} {n : Int64} {stack : List Int64} {s t : σ}
      (h : (host.var id).run s = (.ok n, t)) :
      Succeeds host fetches (.var id) stack s [.var id] (n :: stack) t
  | slot {name : String} {index : UInt8} {f : Fetch} {n : Int64} {stack : List Int64} {s t : σ}
      (hf : fetches.find? (·.name == name) = some f)
      (h : (host.slot f index).run s = (.ok n, t)) :
      Succeeds host fetches (.slot name index) stack s [.slot f index] (n :: stack) t
  | binary {op : BinaryOp} {a b n : Int64} {stack : List Int64} {s : σ}
      (h : op.result? a b = some n) :
      Succeeds host fetches (.binary op) (b :: a :: stack) s [] (n :: stack) s
  | unary {op : UnaryOp} {x n : Int64} {stack : List Int64} {s : σ}
      (h : op.result? x = some n) :
      Succeeds host fetches (.unary op) (x :: stack) s [] (n :: stack) s
  | random {x n : Int64} {stack : List Int64} {s t : σ} (h : host.random x s = (n, t)) :
      Succeeds host fetches (.unary .random) (x :: stack) s [.random x] (n :: stack) t

/-- An instruction fails with an error, where the stack stands at a height that has been counted.
Too few operands are reported before anything else. -/
inductive Fails (host : Host σ) (fetches : List Fetch) (height : Int) :
    Instruction → List Int64 → σ → List HostCall → Error → σ → Prop
  | underflow {i : Instruction} {stack : List Int64} {s : σ} (h : height < i.arity) :
      Fails host fetches height i stack s [] ⟨.evaluation, "stack underflow"⟩ s
  | zeroDivisor {op : BinaryOp} {stack : List Int64} {s : σ} (hop : op = .div ∨ op = .rem)
      (htwo : 2 ≤ height) (hzero : stack.head? = some 0) :
      Fails host fetches height (.binary op) stack s [] op.byZero s
  | unbound {name : String} {index : UInt8} {stack : List Int64} {s : σ}
      (h : ∀ f ∈ fetches, f.name ≠ name) :
      Fails host fetches height (.slot name index) stack s []
        ⟨.evaluation, "local '" ++ name ++ "' has no fetch"⟩ s
  | var {id : String} {stack : List Int64} {e : Error} {s t : σ}
      (h : (host.var id).run s = (.error e, t)) :
      Fails host fetches height (.var id) stack s [.var id] e t
  | slot {name : String} {index : UInt8} {f : Fetch} {stack : List Int64} {e : Error} {s t : σ}
      (hf : fetches.find? (·.name == name) = some f)
      (h : (host.slot f index).run s = (.error e, t)) :
      Fails host fetches height (.slot name index) stack s [.slot f index] e t

/-- All of the code is executed from an empty stack, and no instruction of it fails. -/
inductive Executes (host : Host σ) (fetches : List Fetch) (s : σ) :
    List Instruction → List HostCall → List Int64 → σ → Prop
  | start : Executes host fetches s [] [] [] s
  | next {code : List Instruction} {i : Instruction} {calls more : List HostCall}
      {stack stack' : List Int64} {t u : σ} (h : Executes host fetches s code calls stack t)
      (hi : Succeeds host fetches i stack t more stack' u) :
      Executes host fetches s (code ++ [i]) (calls ++ more) stack' u

/-- How a program ends: with the failure of its first instruction that fails, or else as the count
says, with the one value on the stack or with an error that names the count. -/
inductive Ends (p : Program) (host : Host σ) (s : σ) :
    Except Error Int64 → List HostCall → σ → Prop
  | failed {code after : List Instruction} {i : Instruction} {calls more : List HostCall}
      {stack : List Int64} {e : Error} {t u : σ} (hcode : p.code = code ++ i :: after)
      (h : Executes host p.fetches s code calls stack t)
      (hi : Fails host p.fetches (staticHeight code) i stack t more e u) :
      Ends p host s (.error e) (calls ++ more) u
  | value {calls : List HostCall} {n : Int64} {t : σ}
      (h : Executes host p.fetches s p.code calls [n] t) (hheight : staticHeight p.code = 1) :
      Ends p host s (.ok n) calls t
  | unbalanced {calls : List HostCall} {stack : List Int64} {t : σ}
      (h : Executes host p.fetches s p.code calls stack t) (hheight : staticHeight p.code ≠ 1) :
      Ends p host s (.error ⟨.evaluation, "stack has " ++ toString (staticHeight p.code).toNat ++
        " values at end of program"⟩) calls t

section

variable {host : Host σ} {fetches : List Fetch} {i : Instruction} {code : List Instruction}
  {stack stack' : List Int64} {s t u : σ} {calls more : List HostCall} {e : Error}

/-! ### One instruction -/

theorem Succeeds.length_eq (h : Succeeds host fetches i stack s calls stack' t) :
    (stack'.length : Int) = stack.length + i.effect := by
  cases h <;> simp only [List.length_cons, Instruction.effect] <;> omega

theorem Succeeds.forall₂_makes (h : Succeeds host fetches i stack s calls stack' t) :
    List.Forall₂ (Instruction.Makes fetches) ([i].filter Instruction.callsHost) calls := by
  cases h with
  | number n => exact .nil
  | var h => exact .cons (.var _) .nil
  | slot hf h => exact .cons (.slot hf) .nil
  | binary h => exact .nil
  | @unary op x n _ _ h =>
    have hcalls : (Instruction.unary op).callsHost = false := by
      cases op with
      | random => cases h
      | _ => rfl
    rw [List.filter_singleton, hcalls]
    exact .nil
  | random h => exact .cons (.random _) .nil

theorem step_of_succeeds (h : Succeeds host fetches i stack s calls stack' t) (log : CallLog) :
    (step host.logging fetches stack i).run (s, log) = (.ok stack', (t, log ++ calls)) := by
  cases h with
  | number n =>
    rw [List.append_nil]
    rfl
  | @var id n _ _ _ h =>
    have hcall := Run.run_logged h (.var id) log
    simp only [step, Host.logging, Run.run_bind, hcall]
    rfl
  | @slot name index f n _ _ _ hf h =>
    have hcall := Run.run_logged h (.slot f index) log
    simp only [step, hf, Host.logging, Run.run_bind, hcall]
    rfl
  | binary h =>
    simp only [step, h, List.append_nil]
    rfl
  | unary h =>
    simp only [step_unary_of_result? _ _ h, List.append_nil]
    rfl
  | random h =>
    have hdraw := Host.run_random_logging h log
    simp only [step_random, Run.run_bind, hdraw]
    rfl

theorem step_of_fails (h : Fails host fetches stack.length i stack s calls e t) (log : CallLog) :
    (step host.logging fetches stack i).run (s, log) = (.error e, (t, log ++ calls)) := by
  cases h with
  | underflow h =>
    -- Operands are looked for before anything else, so a division does not get to its divisor.
    rw [List.append_nil]
    cases i with
    | binary op =>
      match stack with
      | [] => rfl
      | [_] => rfl
      | _ :: _ :: _ => simp [Instruction.arity] at h; omega
    | unary op =>
      match stack with
      | [] =>
        simp only [step_unary_nil]
        rfl
      | _ :: _ => simp [Instruction.arity] at h; omega
    | _ => simp [Instruction.arity] at h; omega
  | zeroDivisor hop htwo hzero =>
    rw [List.append_nil]
    match stack with
    | b :: a :: rest =>
      obtain rfl := Option.some.inj hzero
      have hnone := (BinaryOp.result?_eq_none_iff (a := a)).mpr ⟨hop, rfl⟩
      simp only [step, hnone, fail, BinaryOp.toError_zeroDivisor hnone]
      rfl
  | @unbound name _ _ _ h =>
    have hnone : fetches.find? (·.name == name) = none := by
      rw [List.find?_eq_none]
      intro f hf
      simpa using h f hf
    simp only [step, hnone, List.append_nil]
    rfl
  | @var id _ _ _ _ h =>
    have hcall := Run.run_logged h (.var id) log
    simp only [step, Host.logging, Run.run_bind, hcall]
  | @slot name index f _ _ _ _ hf h =>
    have hcall := Run.run_logged h (.slot f index) log
    simp only [step, hf, Host.logging, Run.run_bind, hcall]

theorem succeeds_or_fails (host : Host σ) (fetches : List Fetch) (i : Instruction)
    (stack : List Int64) (s : σ) :
    (∃ calls stack' t, Succeeds host fetches i stack s calls stack' t) ∨
      ∃ calls e t, Fails host fetches stack.length i stack s calls e t := by
  cases i with
  | number n => exact .inl ⟨_, _, _, .number n stack s⟩
  | var id =>
    rcases h : (host.var id).run s with ⟨e | n, t⟩
    · exact .inr ⟨_, _, _, .var h⟩
    · exact .inl ⟨_, _, _, .var h⟩
  | slot name index =>
    cases hf : fetches.find? (·.name == name) with
    | none =>
      refine .inr ⟨_, _, _, .unbound fun f hmem => ?_⟩
      simpa using List.find?_eq_none.mp hf f hmem
    | some f =>
      rcases h : (host.slot f index).run s with ⟨e | n, t⟩
      · exact .inr ⟨_, _, _, .slot hf h⟩
      · exact .inl ⟨_, _, _, .slot hf h⟩
  | binary op =>
    match stack with
    | [] => exact .inr ⟨_, _, _, .underflow (by simp [Instruction.arity])⟩
    | [_] => exact .inr ⟨_, _, _, .underflow (by simp [Instruction.arity])⟩
    | b :: a :: rest =>
      cases h : op.result? a b with
      | some n => exact .inl ⟨_, _, _, .binary h⟩
      | none =>
        obtain ⟨hop, rfl⟩ := BinaryOp.result?_eq_none_iff.mp h
        have htwo : (2 : Int) ≤ (0 :: a :: rest).length := by
          simp only [List.length_cons]
          omega
        exact .inr ⟨_, _, _, .zeroDivisor hop htwo rfl⟩
  | unary op =>
    match stack with
    | [] => exact .inr ⟨_, _, _, .underflow (by simp [Instruction.arity])⟩
    | x :: rest =>
      obtain rfl | ⟨n, h⟩ := op.eq_random_or_exists_result? x
      · exact .inl ⟨_, _, _, .random rfl⟩
      · exact .inl ⟨_, _, _, .unary h⟩

theorem Fails.not_succeeds (hf : Fails host fetches stack.length i stack s calls e t) :
    ¬ Succeeds host fetches i stack s more stack' u := by
  intro hs
  have hstep := step_of_succeeds hs []
  rw [step_of_fails hf []] at hstep
  cases hstep

/-! ### A piece of code -/

theorem Executes.length_eq (h : Executes host fetches s code calls stack t) :
    (stack.length : Int) = staticHeight code := by
  induction h with
  | start => rfl
  | @next code i _ _ _ _ _ _ _ hi ih =>
    have hheight : staticHeight (code ++ [i]) = staticHeight code + i.effect := by
      rw [staticHeight_append, staticHeight, staticHeight, Int.add_zero]
    rw [hi.length_eq, ih, hheight]

theorem Executes.forall₂_makes (h : Executes host fetches s code calls stack t) :
    List.Forall₂ (Instruction.Makes fetches) (code.filter Instruction.callsHost) calls := by
  induction h with
  | start => exact .nil
  | next _ hi ih =>
    rw [List.filter_append]
    exact List.rel_append ih hi.forall₂_makes

theorem Executes.steps_eq (h : Executes host fetches s code calls stack t) :
    (steps host.logging fetches [] code).run (s, []) = (.ok stack, (t, calls)) := by
  induction h with
  | start => rfl
  | @next code i calls more stack stack' t u _ hi ih =>
    have hstep := step_of_succeeds hi calls
    rw [steps_append, Run.run_bind, ih]
    simp only [steps, bind_pure, hstep]

theorem Executes.steps_eq_of_fails (h : Executes host fetches s code calls stack t)
    (hi : Fails host fetches (staticHeight code) i stack t more e u) (after : List Instruction) :
    (steps host.logging fetches [] (code ++ i :: after)).run (s, []) =
      (.error e, (u, calls ++ more)) := by
  rw [← h.length_eq] at hi
  have hstep := step_of_fails hi calls
  rw [steps_append, Run.run_bind, h.steps_eq]
  simp only [steps, Run.run_bind, hstep]

/-- Either all of the code is executed, or there is a first instruction that fails. -/
theorem executes_or_fails (host : Host σ) (fetches : List Fetch) (s : σ)
    (code : List Instruction) :
    (∃ calls stack t, Executes host fetches s code calls stack t) ∨
      ∃ before i after calls stack t more e u, code = before ++ i :: after ∧
        Executes host fetches s before calls stack t ∧
        Fails host fetches (staticHeight before) i stack t more e u := by
  -- Code grows at its end, as the execution of it does.
  induction code using List.reverseRecOn with
  | nil => exact .inl ⟨_, _, _, .start⟩
  | append_singleton code i ih =>
    rcases ih with ⟨calls, stack, t, h⟩ | ⟨before, j, after, calls, stack, t, more, e, u, hcode, h⟩
    · rcases succeeds_or_fails host fetches i stack t with ⟨more, stack', u, hi⟩ | ⟨more, e, u, hi⟩
      · exact .inl ⟨_, _, _, h.next hi⟩
      · rw [h.length_eq] at hi
        exact .inr ⟨code, i, [], calls, stack, t, more, e, u, rfl, h, hi⟩
    · refine .inr ⟨before, j, after ++ [i], calls, stack, t, more, e, u, ?_, h⟩
      rw [hcode, List.append_assoc, List.cons_append]

end

/-! ### A whole program -/

theorem Ends.run_eq {p : Program} {host : Host σ} {s t : σ} {r : Except Error Int64}
    {calls : List HostCall} (h : p.Ends host s r calls t) :
    (p.run host.logging).run (s, []) = (r, (t, calls)) := by
  rw [Program.run, Run.run_bind]
  cases h with
  | failed hcode h hi => rw [hcode, h.steps_eq_of_fails hi]
  | value h hheight =>
    rw [h.steps_eq]
    rfl
  | @unbalanced _ stack _ h hheight =>
    have hlength := h.length_eq
    rw [h.steps_eq, ← hlength, Int.toNat_natCast]
    rw [← hlength] at hheight
    rcases stack with _ | ⟨n, _ | ⟨m, rest⟩⟩
    · rfl
    · exact absurd rfl hheight
    · rfl

theorem exists_ends (p : Program) (host : Host σ) (s : σ) :
    ∃ r calls t, p.Ends host s r calls t := by
  rcases executes_or_fails host p.fetches s p.code with
    ⟨calls, stack, t, h⟩ | ⟨before, i, after, calls, stack, t, more, e, u, hcode, h, hi⟩
  · by_cases hheight : staticHeight p.code = 1
    · have hlength := h.length_eq
      rw [hheight] at hlength
      obtain ⟨n, rfl⟩ : ∃ n, stack = [n] := List.length_eq_one_iff.mp (by omega)
      exact ⟨_, _, _, .value h hheight⟩
    · exact ⟨_, _, _, .unbalanced h hheight⟩
  · exact ⟨_, _, _, .failed hcode h hi⟩

theorem run_logging_eq_iff {p : Program} {host : Host σ} {s t : σ} {r : Except Error Int64}
    {calls : List HostCall} :
    (p.run host.logging).run (s, []) = (r, (t, calls)) ↔ p.Ends host s r calls t := by
  constructor
  · intro hrun
    obtain ⟨r', calls', t', h⟩ := exists_ends p host s
    have heq := h.run_eq.symm.trans hrun
    obtain ⟨rfl, hrest⟩ := Prod.mk.inj heq
    obtain ⟨rfl, rfl⟩ := Prod.mk.inj hrest
    exact h
  · exact Ends.run_eq

theorem run_eq_iff {p : Program} {host : Host σ} {s t : σ} {r : Except Error Int64} :
    (p.run host).run s = (r, t) ↔ ∃ calls, p.Ends host s r calls t := by
  have hlogs := onlyLogs_run p host
  constructor
  · intro hrun
    obtain ⟨r', calls, t', h⟩ := exists_ends p host s
    obtain ⟨rfl, rfl⟩ := Prod.mk.inj (hrun.symm.trans (hlogs.run_eq h.run_eq))
    exact ⟨calls, h⟩
  · rintro ⟨calls, h⟩
    exact hlogs.run_eq h.run_eq

end Program

/-! ### Errors -/

theorem RunFault.toError_ne_noStaticResult {f : RunFault} (hf : ∀ op, f ≠ .noStaticResult op)
    (op : UnaryOp) : f.toError ≠ op.noStaticResult := by
  intro h
  have hmessage : f.message = "'" ++ op.tag ++ "' has no static result" := congrArg Error.detail h
  have hfirst := congrArg (fun text => text.toList.head?) hmessage
  have hlast := congrArg (fun text => text.toList.getLast?) hmessage
  cases f with
  | zeroDivisor op' => simp [RunFault.message, List.getLast?_append, List.getLast?_cons] at hlast
  | stackUnderflow => simp [RunFault.message] at hfirst
  | unboundLocal name => simp [RunFault.message] at hfirst
  | noStaticResult op' => exact hf op' rfl
  | unbalanced height => simp [RunFault.message] at hfirst

namespace Program

variable {σ : Type}

theorem Fails.fault_or_call {host : Host σ} {fetches : List Fetch} {height : Int}
    {i : Instruction} {stack : List Int64} {s t : σ} {calls : List HostCall} {e : Error}
    (h : Fails host fetches height i stack s calls e t) :
    (∃ f : RunFault, (∀ op, f ≠ .noStaticResult op) ∧ f.toError = e) ∨
      (∃ id u, (host.var id).run u = (.error e, t)) ∨
      ∃ f ∈ fetches, ∃ index u, (host.slot f index).run u = (.error e, t) := by
  cases h with
  | underflow h => exact .inl ⟨.stackUnderflow, by simp, rfl⟩
  | @zeroDivisor op stack s hop htwo hzero =>
    have hnone := (BinaryOp.result?_eq_none_iff (a := 0)).mpr ⟨hop, rfl⟩
    exact .inl ⟨.zeroDivisor op, by simp, BinaryOp.toError_zeroDivisor hnone⟩
  | @unbound name _ _ _ h => exact .inl ⟨.unboundLocal name, by simp, rfl⟩
  | var h => exact .inr (.inl ⟨_, _, h⟩)
  | slot hf h => exact .inr (.inr ⟨_, List.mem_of_find?_eq_some hf, _, _, h⟩)

/-- Whatever a program reports comes from a call or is a fault of the machine, and this fault is
never that an operator has no static result. -/
theorem Ends.fault_or_call {p : Program} {host : Host σ} {s t : σ} {e : Error}
    {calls : List HostCall} (h : p.Ends host s (.error e) calls t) :
    (∃ f : RunFault, (∀ op, f ≠ .noStaticResult op) ∧ f.toError = e) ∨
      (∃ id u, (host.var id).run u = (.error e, t)) ∨
      ∃ f ∈ p.fetches, ∃ index u, (host.slot f index).run u = (.error e, t) := by
  cases h with
  | failed hcode h hi => exact hi.fault_or_call
  | unbalanced h hheight => exact .inl ⟨.unbalanced _, by simp, rfl⟩

/-- Any program ends as its instructions and their static count say. -/
theorem run_eq_iff_ends (p : Program) (host : Host σ) (s : σ) :
    (∀ r calls t, (p.run host.logging).run (s, []) = (r, (t, calls)) ↔
        p.Ends host s r calls t) ∧
      (∀ r t, (p.run host).run s = (r, t) ↔ ∃ calls, p.Ends host s r calls t) ∧
      (∀ code calls stack t, Executes host p.fetches s code calls stack t →
        (stack.length : Int) = staticHeight code ∧
          List.Forall₂ (Instruction.Makes p.fetches) (code.filter Instruction.callsHost) calls ∧
          ∀ i, (∃ more e u, Fails host p.fetches (staticHeight code) i stack t more e u) ↔
            ¬ ∃ more stack' u, Succeeds host p.fetches i stack t more stack' u) ∧
      ∀ (op : UnaryOp) calls t, p.Ends host s (.error op.noStaticResult) calls t →
        (∃ id u, (host.var id).run u = (.error op.noStaticResult, t)) ∨
          ∃ f ∈ p.fetches, ∃ index u,
            (host.slot f index).run u = (.error op.noStaticResult, t) := by
  refine ⟨fun r calls t => run_logging_eq_iff, fun r t => run_eq_iff,
    fun code calls stack t h => ⟨h.length_eq, h.forall₂_makes, fun i => ?_⟩,
    fun op calls t h => ?_⟩
  · rw [← h.length_eq]
    constructor
    · rintro ⟨more, e, u, hf⟩ ⟨more', stack', u', hs⟩
      exact hf.not_succeeds hs
    · intro hs
      exact (succeeds_or_fails host p.fetches i stack t).resolve_left hs
  · rcases h.fault_or_call with ⟨f, hother, hf⟩ | hcall
    · exact absurd hf (RunFault.toError_ne_noStaticResult hother op)
    · exact hcall

/-- A host that knows no variable, and finds zero in every record. -/
def blankHost : Host Unit where
  var _ := throw UnaryOp.abs.noStaticResult
  slot _ _ := pure 0
  random x := pure x

/-- Two fetches into one local. -/
def twoOfOneName : List Fetch := [⟨"a", ⟨.frame, "npc"⟩⟩, ⟨"a", ⟨.frame, "player"⟩⟩]

theorem run_eq_iff_ends_division :
    Executes blankHost twoOfOneName () [.number 7, .slot "a" 0]
        [.slot ⟨"a", ⟨.frame, "npc"⟩⟩ 0] [0, 7] () ∧
      staticHeight [.number 7, .slot "a" 0] = 2 ∧
      (run ⟨[.number 7, .slot "a" 0, .binary .div, .var "0"], twoOfOneName⟩ blankHost).run () =
        (.error ⟨.evaluation, "'div' by zero"⟩, ()) ∧
      Ends ⟨[.var "0"], []⟩ blankHost () (.error UnaryOp.abs.noStaticResult) [.var "0"] () ∧
      ∃ id u, (blankHost.var id).run u = (.error UnaryOp.abs.noStaticResult, ()) := by
  have hexec : Executes blankHost twoOfOneName () [.number 7, .slot "a" 0]
      [.slot ⟨"a", ⟨.frame, "npc"⟩⟩ 0] [0, 7] () :=
    (Executes.start.next (.number 7 [] ())).next (.slot rfl rfl)
  have hfails : Fails blankHost twoOfOneName (staticHeight [.number 7, .slot "a" 0])
      (.binary .div) [0, 7] () [] BinaryOp.div.byZero () :=
    .zeroDivisor (.inl rfl) (by decide) rfl
  have hdivision := run_eq_iff_ends
    ⟨[.number 7, .slot "a" 0, .binary .div, .var "0"], twoOfOneName⟩ blankHost ()
  have hvar : Ends ⟨[.var "0"], []⟩ blankHost () (.error UnaryOp.abs.noStaticResult)
      [.var "0"] () :=
    .failed rfl .start (.var rfl)
  have hcall := (run_eq_iff_ends ⟨[.var "0"], []⟩ blankHost ()).2.2.2 .abs _ _ hvar
  refine ⟨hexec, ?_, ?_, hvar, ?_⟩
  · exact (hdivision.2.2.1 _ _ _ _ hexec).1.symm
  · exact (hdivision.2.1 _ _).mpr ⟨_, .failed rfl hexec hfails⟩
  · exact hcall.resolve_right (by simp)

end Program

end SceneFormula
