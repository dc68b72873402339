import SceneFormula.Program.Run
import Mathlib.Tactic

/-!
# Call logs

A host may keep a log of its calls, so that two computations can be compared by what they ask of it
and not only by what they return.  The log is kept beside the state and never read: a run against a
logging host does what the run against the host itself does, and besides only adds to the log.
-/

namespace SceneFormula

/-- What is asked of a host. -/
inductive HostCall where
  | var (id : String)
  | slot (fetch : Fetch) (index : UInt8)
  | random (bound : Int64)
  deriving DecidableEq

/-- The calls so far, the last one at the end. -/
abbrev CallLog := List HostCall

namespace Run

variable {σ α β : Type}

/-- Logs a call, and then runs on the state beside the log.  The call stays in the log if it
fails. -/
def logged (call : HostCall) (m : Run σ α) : Run (σ × CallLog) α :=
  ExceptT.mk fun (s, log) =>
    let (r, s) := m.run s
    (r, (s, log ++ [call]))

theorem run_logged {m : Run σ α} {r : Except Error α} {s t : σ} (h : m.run s = (r, t))
    (call : HostCall) (log : CallLog) :
    (m.logged call).run (s, log) = (r, (t, log ++ [call])) := by
  have hrun : (m.logged call).run (s, log) = ((m.run s).1, ((m.run s).2, log ++ [call])) := rfl
  rw [hrun, h]

/-- `m` does what `n` does, and besides only adds to its log. -/
def OnlyLogs (m : Run (σ × CallLog) α) (n : Run σ α) : Prop :=
  ∀ s log, ∃ calls, m.run (s, log) = ((n.run s).1, ((n.run s).2, log ++ calls))

theorem OnlyLogs.run_eq {m : Run (σ × CallLog) α} {n : Run σ α} (h : OnlyLogs m n)
    {r : Except Error α} {s t : σ} {log log' : CallLog} (hm : m.run (s, log) = (r, (t, log'))) :
    n.run s = (r, t) := by
  obtain ⟨calls, hlog⟩ := h s log
  rw [hlog] at hm
  obtain ⟨hr, hrest⟩ := Prod.mk.inj hm
  exact Prod.ext hr (Prod.mk.inj hrest).1

theorem onlyLogs_logged (call : HostCall) (m : Run σ α) : OnlyLogs (m.logged call) m :=
  fun _ _ => ⟨[call], rfl⟩

theorem onlyLogs_pure (a : α) : OnlyLogs (pure a : Run (σ × CallLog) α) (pure a) :=
  fun s log => ⟨[], by rw [List.append_nil]; rfl⟩

theorem onlyLogs_fail (f : RunFault) :
    OnlyLogs (Program.fail f : Run (σ × CallLog) α) (Program.fail f) :=
  fun s log => ⟨[], by rw [List.append_nil]; rfl⟩

theorem run_bind (m : Run σ α) (f : α → Run σ β) (s : σ) :
    (m >>= f).run s = match m.run s with
      | (.ok a, s) => (f a).run s
      | (.error e, s) => (.error e, s) := by
  change (ExceptT.bindCont f (m.run s).1) (m.run s).2 = _
  generalize m.run s = p
  obtain ⟨a | e, s⟩ := p <;> rfl

theorem OnlyLogs.bind {m : Run (σ × CallLog) α} {n : Run σ α} {f : α → Run (σ × CallLog) β}
    {g : α → Run σ β} (h : OnlyLogs m n) (hf : ∀ a, OnlyLogs (f a) (g a)) :
    OnlyLogs (m >>= f) (n >>= g) := by
  intro s log
  obtain ⟨calls, hm⟩ := h s log
  rw [run_bind, run_bind, hm]
  obtain ⟨r, s'⟩ := n.run s
  cases r with
  | error e => exact ⟨calls, rfl⟩
  | ok a =>
    obtain ⟨more, hmore⟩ := hf a s' (log ++ calls)
    exact ⟨calls ++ more, by simpa only [List.append_assoc] using hmore⟩

end Run

namespace Host

variable {σ : Type}

/-- The host with a log of its calls beside its state. -/
def logging (host : Host σ) : Host (σ × CallLog) where
  var id := (host.var id).logged (.var id)
  slot fetch index := (host.slot fetch index).logged (.slot fetch index)
  random x := fun (s, log) =>
    let (n, s) := host.random x s
    (n, (s, log ++ [.random x]))

theorem run_random_logging {host : Host σ} {x n : Int64} {s t : σ}
    (h : host.random x s = (n, t)) (log : CallLog) :
    (host.logging.random x : Run (σ × CallLog) Int64).run (s, log) =
      (.ok n, (t, log ++ [.random x])) := by
  have hrun : (host.logging.random x : Run (σ × CallLog) Int64).run (s, log) =
      (.ok (host.random x s).1, ((host.random x s).2, log ++ [.random x])) := rfl
  rw [hrun, h]

end Host

namespace Program

open Run

variable {σ : Type}

theorem onlyLogs_step (host : Host σ) (fetches : List Fetch) (stack : List Int64)
    (i : Instruction) :
    OnlyLogs (step host.logging fetches stack i) (step host fetches stack i) := by
  cases i with
  | number n => exact onlyLogs_pure _
  | var id => exact (onlyLogs_logged _ _).bind fun _ => onlyLogs_pure _
  | slot name index =>
    simp only [step]
    split
    · exact onlyLogs_fail _
    · exact (onlyLogs_logged _ _).bind fun _ => onlyLogs_pure _
  | binary op =>
    simp only [step]
    split
    · split
      · exact onlyLogs_pure _
      · exact onlyLogs_fail _
    · exact onlyLogs_fail _
  | unary op =>
    rcases stack with _ | ⟨x, rest⟩
    · simp only [step_unary_nil]
      exact onlyLogs_fail _
    · obtain rfl | ⟨n, h⟩ := op.eq_random_or_exists_result? x
      · simp only [step_random]
        -- A draw cannot fail, so it is no computation that could be logged as such.
        refine OnlyLogs.bind (fun s log => ?_) fun _ => onlyLogs_pure _
        exact ⟨[.random _], rfl⟩
      · simp only [step_unary_of_result? _ _ h]
        exact onlyLogs_pure _

theorem onlyLogs_steps (host : Host σ) (fetches : List Fetch) (stack : List Int64)
    (code : List Instruction) :
    OnlyLogs (steps host.logging fetches stack code) (steps host fetches stack code) := by
  induction code generalizing stack with
  | nil => exact onlyLogs_pure _
  | cons i code ih => exact (onlyLogs_step host fetches stack i).bind fun stack => ih stack

/-- A log changes neither the outcome of a run nor the state of the host. -/
theorem onlyLogs_run (p : Program) (host : Host σ) :
    OnlyLogs (p.run host.logging) (p.run host) := by
  refine (onlyLogs_steps host p.fetches [] p.code).bind fun stack => ?_
  split
  · exact onlyLogs_pure _
  · exact onlyLogs_fail _

end Program

end SceneFormula
