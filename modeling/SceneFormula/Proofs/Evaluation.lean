import SceneFormula.Program.Compile
import SceneFormula.Program.Run
import Mathlib.Tactic

/-!
# Evaluation of formulas

What a formula means, without a program: its operands are evaluated from left to right, and every
property leaf reads a record of its own.
-/

namespace SceneFormula

namespace BinaryOp

variable {σ : Type}

def byZero : BinaryOp → Error
  | rem => ⟨.evaluation, "'mod' by zero"⟩
  | _ => ⟨.evaluation, "'div' by zero"⟩

def apply (op : BinaryOp) (a b : Int64) : Run σ Int64 :=
  match op.result? a b with
  | some n => pure n
  | none => throw op.byZero

theorem toError_zeroDivisor {op : BinaryOp} {a b : Int64} (h : op.result? a b = none) :
    (RunFault.zeroDivisor op).toError = op.byZero := by
  obtain ⟨rfl | rfl, -⟩ := result?_eq_none_iff.mp h <;> rfl

end BinaryOp

namespace UnaryOp

variable {σ : Type}

/-- What would be reported of an operator on one operand that has no result. -/
def noStaticResult (op : UnaryOp) : Error :=
  ⟨.evaluation, "'" ++ op.tag ++ "' has no static result"⟩

/-- The random draw is left to the host; every other operator has a result of its own. -/
def apply (host : Host σ) : UnaryOp → Int64 → Run σ Int64
  | random, x => host.random x
  | op, x =>
    match op.result? x with
    | some n => pure n
    | none => throw op.noStaticResult

theorem apply_of_result? {op : UnaryOp} {x n : Int64} (h : op.result? x = some n)
    (host : Host σ) : op.apply host x = pure n := by
  cases op with
  | random => cases h
  | _ => simp only [apply, h]

end UnaryOp

/-- An evaluation that numbers the records it reads. -/
abbrev Evaluation (σ : Type) := StateT Nat (Run σ)

namespace ActorProperty

variable {σ : Type}

/-- The kind of record that holds the property, and the slot of it, case by case. -/
def place : ActorProperty → RecordKind × UInt8
  | tileX => (.position, 1)
  | tileY => (.position, 2)
  | pixelX => (.position, 1)
  | pixelY => (.position, 2)
  | direction => (.direction, 0)
  | frame => (.frame, 0)

theorem place_eq (p : ActorProperty) : p.place = (p.recordKind, p.slot) := by
  cases p <;> rfl

/-- The property, given what stands in its slot. -/
def ofSlot : ActorProperty → Int64 → Int64
  | tileX, x | tileY, x => (low x >>> 7).toInt64
  | pixelX, x | pixelY, x => (low x >>> 4).toInt64
  | direction, x | frame, x => x

/-- Reads the property of an actor from the next record. -/
def evaluate (host : Host σ) (stem target : String) (p : ActorProperty) :
    Evaluation σ Int64 := do
  let k ← modifyGet fun k => (k, k + 1)
  let x ← host.slot ⟨localName stem k, ⟨p.place.1, target⟩⟩ p.place.2
  return p.ofSlot x

end ActorProperty

namespace Expr

variable {σ : Type}

def evaluate (host : Host σ) (stem : String) : Expr → Evaluation σ Int64
  | number n => pure n
  | truth b => pure (if b then 1 else 0)
  | var id => host.var id
  | property target p => p.evaluate host stem target
  | binary op l r => do
    let a ← l.evaluate host stem
    let b ← r.evaluate host stem
    (op.apply a b : Run σ Int64)
  | unary op x => do
    let a ← x.evaluate host stem
    op.apply host a

end Expr

namespace Formula

variable {σ : Type}

mutual

/-- The value of a formula.  An absent operand counts as zero, and a text as the expression that it
spells. -/
def evaluate (host : Host σ) (stem : String) : Formula → Evaluation σ Int64
  | number n => pure n
  | truth b => pure (if b then 1 else 0)
  | var id => host.var id
  | property target p => p.evaluate host stem target
  | text source => (Expr.ofText source).evaluate host stem
  | binary op l r => do
    let a ← evaluateOperand host stem l
    let b ← evaluateOperand host stem r
    (op.apply a b : Run σ Int64)
  | unary op x => do
    let a ← evaluateOperand host stem x
    op.apply host a

def evaluateOperand (host : Host σ) (stem : String) : Option Formula → Evaluation σ Int64
  | none => pure 0
  | some f => f.evaluate host stem

end

/-- The value of a formula whose first record has number 0. -/
def value (host : Host σ) (stem : String) (f : Formula) : Run σ Int64 :=
  (f.evaluate host stem).run' 0

mutual

theorem evaluate_complete (host : Host σ) (stem : String) (f : Formula) :
    f.complete.evaluate host stem = f.evaluate host stem := by
  cases f with
  | binary op l r =>
    simp only [complete, Expr.evaluate, evaluate, evaluate_completeOperand host stem l,
      evaluate_completeOperand host stem r]
  | unary op x =>
    simp only [complete, Expr.evaluate, evaluate, evaluate_completeOperand host stem x]
  | _ => simp only [complete, Expr.evaluate, evaluate]

theorem evaluate_completeOperand (host : Host σ) (stem : String) (x : Option Formula) :
    (completeOperand x).evaluate host stem = evaluateOperand host stem x := by
  cases x with
  | none => rfl
  | some f => simp only [completeOperand, evaluateOperand, evaluate_complete host stem f]

end

/-- A text has the value of the tree that it spells. -/
theorem evaluate_text (host : Host σ) (stem source : String) :
    (text source).evaluate host stem = (Expr.ofText source).toFormula.evaluate host stem := by
  rw [← evaluate_complete host stem (Expr.ofText source).toFormula, Expr.complete_toFormula,
    evaluate]

end Formula

end SceneFormula
