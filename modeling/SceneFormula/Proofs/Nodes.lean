import SceneFormula.Expr
import SceneFormula.Formula.Walk
import Mathlib.Tactic

/-!
# Nodes of a formula

A walk keeps the roots of the subtrees that are still to be visited.  What it goes on to yield are
the nodes of these subtrees one after the other, so it yields a formula in preorder.
-/

namespace SceneFormula

namespace Formula

theorem preorderOperand_eq (x : Option Formula) :
    preorderOperand x = x.toList.flatMap preorder := by
  cases x <;> simp [preorderOperand]

theorem preorder_eq_cons (f : Formula) : f.preorder = f :: f.operands.flatMap preorder := by
  cases f with
  | binary op l r => simp only [preorder, operands, preorderOperand_eq, List.flatMap_append]
  | unary op x => simp only [preorder, operands, preorderOperand_eq]
  | _ => rfl

/-- What holds of all nodes holds of the root and of all nodes of the operands. -/
theorem forall_mem_preorder_iff {P : Formula → Prop} (f : Formula) :
    (∀ g ∈ f.preorder, P g) ↔ P f ∧ ∀ x ∈ f.operands, ∀ g ∈ x.preorder, P g := by
  rw [preorder_eq_cons, List.forall_mem_cons]
  refine and_congr_right fun _ => ?_
  constructor
  · intro h x hx g hg
    exact h g (List.mem_flatMap.mpr ⟨x, hx, hg⟩)
  · intro h g hg
    obtain ⟨x, hx, hg⟩ := List.mem_flatMap.mp hg
    exact h x hx g hg

end Formula

namespace Expr

@[simp] theorem operands_toFormula_binary (op : BinaryOp) (l r : Expr) :
    (binary op l r).toFormula.operands = [l.toFormula, r.toFormula] := rfl

@[simp] theorem operands_toFormula_unary (op : UnaryOp) (x : Expr) :
    (unary op x).toFormula.operands = [x.toFormula] := rfl

end Expr

namespace Walk

theorem toList_nil : toList ⟨[]⟩ = [] := by
  rw [toList]
  rfl

theorem toList_cons (f : Formula) (fs : List Formula) :
    toList ⟨f :: fs⟩ = f :: toList ⟨f.operands ++ fs⟩ := by
  rw [toList]
  rfl

/-- What holds of the walk that is over, and of a walk whenever it holds of the rest after the next
node, holds of every walk. -/
@[elab_as_elim]
theorem induction_pending {P : Walk → Prop} (nil : P ⟨[]⟩)
    (cons : ∀ f fs, P ⟨f.operands ++ fs⟩ → P ⟨f :: fs⟩) (w : Walk) : P w := by
  induction w using toList.induct with
  | case1 w h =>
    obtain ⟨_ | ⟨f, fs⟩⟩ := w
    · exact nil
    · cases h
  | case2 w f rest h _ ih =>
    obtain ⟨_ | ⟨g, gs⟩⟩ := w
    · cases h
    · cases h
      exact cons f gs ih

theorem toList_eq_flatMap_preorder (w : Walk) :
    w.toList = w.pending.flatMap Formula.preorder := by
  induction w using induction_pending with
  | nil => exact toList_nil
  | cons f fs ih =>
    rw [toList_cons, ih, List.flatMap_append, List.flatMap_cons, Formula.preorder_eq_cons f,
      List.cons_append]

/-- A search asks the nodes that the walk yields, in their order. -/
theorem anyM_eq_anyM_toList {m : Type → Type} [Monad m] (p : Formula → m Bool) (w : Walk) :
    w.anyM p = w.toList.anyM p := by
  induction w using induction_pending with
  | nil =>
    rw [anyM, toList_nil]
    rfl
  | cons f fs ih =>
    rw [anyM, toList_cons, List.anyM]
    simp only [next?, ih]
    congr 1
    funext b
    cases b <;> rfl

theorem any_eq_any_toList (p : Formula → Bool) (w : Walk) : w.any p = w.toList.any p := by
  rw [any, anyM_eq_anyM_toList, List.anyM_pure]
  rfl

end Walk

namespace Formula

theorem toList_walk (f : Formula) : f.walk.toList = f.preorder := by
  rw [Walk.toList_eq_flatMap_preorder, walk, List.flatMap_cons, List.flatMap_nil,
    List.append_nil]

end Formula

end SceneFormula
