import SceneFormula.Proofs.Nodes
import SceneFormula.Proofs.Simplification

/-!
# Normal forms

A formula is in normal form if nothing is left to work out at any of its nodes.  At one node this is
the same as to say that folding leaves it in its place, so simplification ends in normal forms and
changes nothing in them.
-/

namespace SceneFormula

namespace Formula

/-- Nothing is left to work out at the root: it holds no text, no operand is absent, and if all its
operands are literals, it has no result before a program runs. -/
inductive Settled : Formula → Prop
  | number (n : Int64) : Settled (number n)
  | var (id : String) : Settled (var id)
  | property (target : String) (p : ActorProperty) : Settled (property target p)
  | truth (b : Bool) : Settled (truth b)
  | binary {op : BinaryOp} {l r : Formula}
      (h : l.constant?.isSome → r.constant?.isSome →
        (op = .div ∨ op = .rem) ∧ r.constant? = some 0) :
      Settled (binary op (some l) (some r))
  | unary {op : UnaryOp} {x : Formula} (h : x.constant?.isSome → op = .random) :
      Settled (unary op (some x))

def IsNormal (f : Formula) : Prop := ∀ g ∈ f.preorder, g.Settled

theorem isNormal_iff {f : Formula} : f.IsNormal ↔ f.Settled ∧ ∀ x ∈ f.operands, x.IsNormal :=
  forall_mem_preorder_iff f

theorem Settled.isNormal {f : Formula} (h : f.Settled) (hf : f.operands = []) : f.IsNormal :=
  isNormal_iff.mpr ⟨h, by simp [hf]⟩

theorem IsNormal.settled {f : Formula} (h : f.IsNormal) : f.Settled := (isNormal_iff.mp h).1

theorem IsNormal.of_mem_operands {f x : Formula} (h : f.IsNormal) (hx : x ∈ f.operands) :
    x.IsNormal :=
  (isNormal_iff.mp h).2 x hx

end Formula

namespace Expr

theorem foldBinary_eq_binary_iff {op : BinaryOp} {l r : Expr} :
    foldBinary op l r = .binary op l r ↔
      ∀ a b, l.constant? = some a → r.constant? = some b → op.result? a b = none := by
  constructor
  · intro h a b ha hb
    cases hn : op.result? a b with
    | none => rfl
    | some n => simp [foldBinary, ha, hb, hn] at h
  · intro h
    rcases foldBinary_cases op l r with hfold | ⟨a, b, n, ha, hb, hn, -⟩
    · exact hfold
    · simp [h a b ha hb] at hn

theorem foldUnary_eq_unary_iff {op : UnaryOp} {x : Expr} :
    foldUnary op x = .unary op x ↔ ∀ a, x.constant? = some a → op.result? a = none := by
  constructor
  · intro h a ha
    cases hn : op.result? a with
    | none => rfl
    | some n => simp [foldUnary, ha, hn] at h
  · intro h
    rcases foldUnary_cases op x with hfold | ⟨a, n, ha, hn, -⟩
    · exact hfold
    · simp [h a ha] at hn

theorem settled_binary_iff {op : BinaryOp} {l r : Expr} :
    (binary op l r).toFormula.Settled ↔ foldBinary op l r = .binary op l r := by
  rw [foldBinary_eq_binary_iff]
  constructor
  · rintro (_ | _ | _ | _ | h) a b ha hb
    obtain ⟨hop, hzero⟩ := h (by simp [ha]) (by simp [hb])
    rw [constant?_toFormula, hb] at hzero
    exact BinaryOp.result?_eq_none_iff.mpr ⟨hop, Option.some.inj hzero⟩
  · intro h
    refine .binary fun hl hr => ?_
    rw [constant?_toFormula] at hl hr
    obtain ⟨a, ha⟩ := Option.isSome_iff_exists.mp hl
    obtain ⟨b, hb⟩ := Option.isSome_iff_exists.mp hr
    obtain ⟨hop, rfl⟩ := BinaryOp.result?_eq_none_iff.mp (h a b ha hb)
    exact ⟨hop, by rw [constant?_toFormula, hb]⟩

theorem settled_unary_iff {op : UnaryOp} {x : Expr} :
    (unary op x).toFormula.Settled ↔ foldUnary op x = .unary op x := by
  rw [foldUnary_eq_unary_iff]
  constructor
  · rintro (_ | _ | _ | _ | _ | h) a ha
    exact UnaryOp.result?_eq_none_iff.mpr (h (by simp [ha]))
  · intro h
    refine .unary fun hx => ?_
    rw [constant?_toFormula] at hx
    obtain ⟨a, ha⟩ := Option.isSome_iff_exists.mp hx
    exact UnaryOp.result?_eq_none_iff.mp (h a ha)

/-- What folding leaves is in normal form, since a node that it does not replace is settled. -/
theorem isNormal_fold (e : Expr) : e.fold.toFormula.IsNormal := by
  induction e with
  | number n => exact (Formula.Settled.number n).isNormal rfl
  | var id => exact (Formula.Settled.var id).isNormal rfl
  | property target p => exact (Formula.Settled.property target p).isNormal rfl
  | truth b => exact (Formula.Settled.truth b).isNormal rfl
  | binary op l r ihl ihr =>
    rw [fold]
    rcases foldBinary_cases op l.fold r.fold with h | ⟨a, b, n, -, -, -, h⟩
    · rw [h, Formula.isNormal_iff]
      exact ⟨settled_binary_iff.mpr h, by simp [ihl, ihr]⟩
    · rw [h]
      exact (Formula.Settled.number n).isNormal rfl
  | unary op x ih =>
    rw [fold]
    rcases foldUnary_cases op x.fold with h | ⟨a, n, -, -, h⟩
    · rw [h, Formula.isNormal_iff]
      exact ⟨settled_unary_iff.mpr h, by simp [ih]⟩
    · rw [h]
      exact (Formula.Settled.number n).isNormal rfl

theorem fold_of_isNormal {e : Expr} (h : e.toFormula.IsNormal) : e.fold = e := by
  induction e with
  | binary op l r ihl ihr =>
    have hl := ihl (h.of_mem_operands (by simp))
    have hr := ihr (h.of_mem_operands (by simp))
    rw [fold, hl, hr]
    exact settled_binary_iff.mp h.settled
  | unary op x ih =>
    have hx := ih (h.of_mem_operands (by simp))
    rw [fold, hx]
    exact settled_unary_iff.mp h.settled
  | _ => rfl

end Expr

namespace Formula

/-- A formula in normal form is complete. -/
theorem IsNormal.exists_toFormula (f : Formula) (h : f.IsNormal) :
    ∃ e : Expr, e.toFormula = f := by
  match f with
  | number n => exact ⟨.number n, rfl⟩
  | var id => exact ⟨.var id, rfl⟩
  | property target p => exact ⟨.property target p, rfl⟩
  | truth b => exact ⟨.truth b, rfl⟩
  | text source => cases h.settled
  | binary op none r => cases h.settled
  | binary op (some l) none => cases h.settled
  | binary op (some l) (some r) =>
    obtain ⟨d, rfl⟩ := exists_toFormula l (h.of_mem_operands (by simp [operands]))
    obtain ⟨e, rfl⟩ := exists_toFormula r (h.of_mem_operands (by simp [operands]))
    exact ⟨.binary op d e, rfl⟩
  | unary op none => cases h.settled
  | unary op (some x) =>
    obtain ⟨e, rfl⟩ := exists_toFormula x (h.of_mem_operands (by simp [operands]))
    exact ⟨.unary op e, rfl⟩

theorem isNormal_simplify (f : Formula) : f.simplify.IsNormal := f.complete.isNormal_fold

theorem simplify_of_isNormal {f : Formula} (h : f.IsNormal) : f.simplify = f := by
  obtain ⟨e, rfl⟩ := h.exists_toFormula
  rw [simplify, Expr.complete_toFormula, Expr.fold_of_isNormal h]

/-- Simplification yields formulas in normal form, and these are just the formulas that it leaves as
they are.  So a second time it changes nothing, and every normal form is had. -/
theorem simplify_eq_self_iff_isNormal :
    (∀ f : Formula, f.simplify.IsNormal) ∧ (∀ f : Formula, f.simplify = f ↔ f.IsNormal) ∧
      (∀ f : Formula, f.simplify.simplify = f.simplify) ∧
      Set.range simplify = {f | f.IsNormal} := by
  have hfixed (f : Formula) : f.simplify = f ↔ f.IsNormal :=
    ⟨fun h => h ▸ isNormal_simplify f, simplify_of_isNormal⟩
  refine ⟨isNormal_simplify, hfixed, fun f => ?_, ?_⟩
  · exact simplify_of_isNormal (isNormal_simplify f)
  · ext f
    constructor
    · rintro ⟨g, rfl⟩
      exact isNormal_simplify g
    · intro h
      exact ⟨f, simplify_of_isNormal h⟩

end Formula

end SceneFormula
