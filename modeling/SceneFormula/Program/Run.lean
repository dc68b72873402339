import SceneFormula.Arithmetic
import SceneFormula.Error
import SceneFormula.Program.Basic

/-!
# Running a program

The machine keeps a stack of words, the top one first.  Variables, records and random numbers come
from a host, whose state outlives a failure.
-/

namespace SceneFormula

/-- What can go wrong in the machine itself. -/
inductive RunFault where
  | zeroDivisor (op : BinaryOp)
  | stackUnderflow
  | unboundLocal (name : String)
  /-- An operator on one operand has no result, and is not the random draw. -/
  | noStaticResult (op : UnaryOp)
  /-- The code left `height` values, and not one. -/
  | unbalanced (height : Nat)
  deriving DecidableEq

namespace RunFault

def message : RunFault → String
  | zeroDivisor op => "'" ++ op.tag ++ "' by zero"
  | stackUnderflow => "stack underflow"
  | unboundLocal name => "local '" ++ name ++ "' has no fetch"
  | noStaticResult op => "'" ++ op.tag ++ "' has no static result"
  | unbalanced height => "stack has " ++ toString height ++ " values at end of program"

def toError (f : RunFault) : Error := ⟨.evaluation, f.message⟩

end RunFault

/-- A computation that may change the state of a host, and may fail. -/
abbrev Run (σ : Type) := ExceptT Error (StateM σ)

/-- The world that a program runs in. -/
structure Host (σ : Type) where
  var : String → Run σ Int64
  slot : Fetch → UInt8 → Run σ Int64
  random : Int64 → StateM σ Int64

namespace Program

variable {σ : Type}

def fail {α : Type} (f : RunFault) : Run σ α := throw f.toError

/-- The stack after an instruction.  A local stands for the first fetch of its name, and a random
number is drawn by the host. -/
def step (host : Host σ) (fetches : List Fetch) (stack : List Int64) :
    Instruction → Run σ (List Int64)
  | .number n => pure (n :: stack)
  | .var id => do return (← host.var id) :: stack
  | .slot name index =>
    match fetches.find? (·.name == name) with
    | none => fail (.unboundLocal name)
    | some f => do return (← host.slot f index) :: stack
  | .binary op =>
    match stack with
    | b :: a :: rest =>
      match op.result? a b with
      | some n => pure (n :: rest)
      | none => fail (.zeroDivisor op)
    | _ => fail .stackUnderflow
  | .unary .random =>
    match stack with
    | x :: rest => do return (← host.random x) :: rest
    | [] => fail .stackUnderflow
  | .unary op =>
    match stack with
    | x :: rest =>
      match op.result? x with
      | some n => pure (n :: rest)
      | none => fail (.noStaticResult op)
    | [] => fail .stackUnderflow

section

variable (host : Host σ) (fetches : List Fetch)

@[simp] theorem step_unary_nil (op : UnaryOp) :
    step host fetches [] (.unary op) = fail .stackUnderflow := by
  cases op <;> rfl

@[simp] theorem step_random (x : Int64) (rest : List Int64) :
    step host fetches (x :: rest) (.unary .random) = (do return (← host.random x) :: rest) :=
  rfl

theorem step_unary_of_result? {op : UnaryOp} {x n : Int64} (h : op.result? x = some n)
    (rest : List Int64) : step host fetches (x :: rest) (.unary op) = pure (n :: rest) := by
  cases op with
  | random => cases h
  | _ => simp only [step, h]

end

/-- The stack after a piece of code. -/
def steps (host : Host σ) (fetches : List Fetch) :
    List Int64 → List Instruction → Run σ (List Int64)
  | stack, [] => pure stack
  | stack, i :: code => do steps host fetches (← step host fetches stack i) code

/-- The one value that a program leaves on the stack. -/
def run (p : Program) (host : Host σ) : Run σ Int64 := do
  match ← steps host p.fetches [] p.code with
  | [n] => pure n
  | stack => fail (.unbalanced stack.length)

end Program

end SceneFormula
