import SceneFormula.Formula.Walk
import SceneFormula.Text.Reference

/-!
# Variables of a formula

A leaf in text form refers to the variables between its dollar signs, whether or not the text can be
read as an expression.
-/

namespace SceneFormula.Formula

/-- The variables that a node refers to itself, not through its operands. -/
def ownVariableIds : Formula → List String
  | var id => [id]
  | text source => Reference.ids source
  | _ => []

/-- The variables of a formula, in the order of a walk and with repetitions. -/
def variableIds (f : Formula) : List String := f.walk.toList.flatMap ownVariableIds

/-- Whether a formula refers to the variable `id`. -/
def mentions (id : String) (f : Formula) : Bool := f.walk.any fun g => g.ownVariableIds.contains id

end SceneFormula.Formula
