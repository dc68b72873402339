import SceneFormula.Formula.Basic

/-!
# Complete expressions

A complete expression has all its operands and no leaf in text form.  It is what a text reads as,
what simplification yields, and what compilation starts from.
-/

namespace SceneFormula

inductive Expr where
  | number (n : Int64)
  | var (id : String)
  | property (target : String) (property : ActorProperty)
  | truth (value : Bool)
  | binary (op : BinaryOp) (left right : Expr)
  | unary (op : UnaryOp) (operand : Expr)
  deriving DecidableEq

namespace Expr

def constant? : Expr → Option Int64
  | number n => some n
  | truth b => some b.toInt64
  | _ => none

def toFormula : Expr → Formula
  | number n => .number n
  | var id => .var id
  | property target p => .property target p
  | truth b => .truth b
  | binary op l r => .binary op (some l.toFormula) (some r.toFormula)
  | unary op x => .unary op (some x.toFormula)

@[simp] theorem constant?_toFormula (e : Expr) : e.toFormula.constant? = e.constant? := by
  cases e <;> rfl

theorem toFormula_injective {d e : Expr} (h : d.toFormula = e.toFormula) : d = e := by
  induction d generalizing e <;> cases e <;> simp_all [toFormula] <;> grind

end Expr

end SceneFormula
