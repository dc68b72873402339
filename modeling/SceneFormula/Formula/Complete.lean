import SceneFormula.Text.Parser

/-!
# Completing a formula

An absent operand counts as zero, and a leaf in text form as the expression it spells.
-/

namespace SceneFormula.Formula

mutual

def complete : Formula → Expr
  | number n => .number n
  | var id => .var id
  | property target p => .property target p
  | text source => Expr.ofText source
  | truth b => .truth b
  | binary op l r => .binary op (completeOperand l) (completeOperand r)
  | unary op x => .unary op (completeOperand x)

def completeOperand : Option Formula → Expr
  | none => .number 0
  | some f => f.complete

end

end SceneFormula.Formula

namespace SceneFormula.Expr

@[simp] theorem complete_toFormula (e : Expr) : e.toFormula.complete = e := by
  induction e <;> simp_all [toFormula, Formula.complete, Formula.completeOperand]

end SceneFormula.Expr
