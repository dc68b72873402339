import SceneFormula.Arithmetic
import SceneFormula.Formula.Complete

/-!
# Simplification

A formula is completed, and then every operator on literals is replaced by its result, from the
leaves upwards.  Random draws stay, and so do divisions by zero: they have no result before the
program runs.
-/

namespace SceneFormula

namespace Expr

/-- An operator on simplified operands. -/
def foldBinary (op : BinaryOp) (l r : Expr) : Expr :=
  match l.constant?, r.constant? with
  | some a, some b =>
    match op.result? a b with
    | some n => .number n
    | none => .binary op l r
  | _, _ => .binary op l r

def foldUnary (op : UnaryOp) (x : Expr) : Expr :=
  match x.constant? with
  | some a =>
    match op.result? a with
    | some n => .number n
    | none => .unary op x
  | none => .unary op x

def fold : Expr → Expr
  | binary op l r => foldBinary op l.fold r.fold
  | unary op x => foldUnary op x.fold
  | e => e

end Expr

/-- The formula with its constant parts worked out. -/
def Formula.simplify (f : Formula) : Formula := f.complete.fold.toFormula

end SceneFormula
