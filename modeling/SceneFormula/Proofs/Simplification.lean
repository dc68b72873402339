import SceneFormula.Formula.Simplify
import SceneFormula.Proofs.Compilation

/-!
# Simplified formulas

Simplification works out constant parts and leaves everything else in its place.  Whatever is
worked out reads no record and asks nothing of a host, so a program keeps its fetches and its calls.
-/

namespace SceneFormula

namespace Expr

variable {σ : Type}

theorem evaluate_of_constant? (host : Host σ) (stem : String) {e : Expr} {n : Int64}
    (h : e.constant? = some n) : e.evaluate host stem = pure n := by
  cases e with
  | number m =>
    obtain rfl : m = n := Option.some.inj h
    rfl
  | truth b =>
    obtain rfl : b.toInt64 = n := Option.some.inj h
    cases b <;> rfl
  | _ => simp [constant?] at h

theorem leaves_of_constant? {e : Expr} {n : Int64} (h : e.constant? = some n) :
    e.leaves = [] := by
  cases e <;> simp_all [constant?, leaves]

/-- Folding an operator either leaves it in its place or puts its result there. -/
theorem foldBinary_cases (op : BinaryOp) (l r : Expr) :
    foldBinary op l r = .binary op l r ∨
      ∃ a b n, l.constant? = some a ∧ r.constant? = some b ∧ op.result? a b = some n ∧
        foldBinary op l r = .number n := by
  unfold foldBinary
  split
  next a b ha hb =>
    cases hn : op.result? a b with
    | none => exact .inl rfl
    | some n => exact .inr ⟨a, b, n, ha, hb, hn, rfl⟩
  next => exact .inl rfl

theorem foldUnary_cases (op : UnaryOp) (x : Expr) :
    foldUnary op x = .unary op x ∨
      ∃ a n, x.constant? = some a ∧ op.result? a = some n ∧ foldUnary op x = .number n := by
  unfold foldUnary
  split
  next a ha =>
    cases hn : op.result? a with
    | none => exact .inl rfl
    | some n => exact .inr ⟨a, n, ha, hn, rfl⟩
  next => exact .inl rfl

theorem evaluate_foldBinary (host : Host σ) (stem : String) (op : BinaryOp) (l r : Expr) :
    (foldBinary op l r).evaluate host stem = (binary op l r).evaluate host stem := by
  rcases foldBinary_cases op l r with h | ⟨a, b, n, ha, hb, hn, h⟩
  · rw [h]
  · rw [h]
    simp [evaluate, evaluate_of_constant? host stem ha, evaluate_of_constant? host stem hb,
      BinaryOp.apply, hn]

theorem evaluate_foldUnary (host : Host σ) (stem : String) (op : UnaryOp) (x : Expr) :
    (foldUnary op x).evaluate host stem = (unary op x).evaluate host stem := by
  rcases foldUnary_cases op x with h | ⟨a, n, ha, hn, h⟩
  · rw [h]
  · rw [h]
    simp [evaluate, evaluate_of_constant? host stem ha, UnaryOp.apply_of_result? hn]

theorem evaluate_fold (host : Host σ) (stem : String) (e : Expr) :
    e.fold.evaluate host stem = e.evaluate host stem := by
  induction e with
  | binary op l r ihl ihr => rw [fold, evaluate_foldBinary, evaluate, evaluate, ihl, ihr]
  | unary op x ih => rw [fold, evaluate_foldUnary, evaluate, evaluate, ih]
  | _ => rfl

/-- What is gathered from left to right, and nothing of it from literals, is kept by folding. -/
theorem gather_fold {α : Type} {gather : Expr → List α}
    (hbinary : ∀ op l r, gather (binary op l r) = gather l ++ gather r)
    (hunary : ∀ op x, gather (unary op x) = gather x)
    (hconstant : ∀ e n, e.constant? = some n → gather e = []) (e : Expr) :
    gather e.fold = gather e := by
  induction e with
  | binary op l r ihl ihr =>
    rw [fold, hbinary, ← ihl, ← ihr]
    rcases foldBinary_cases op l.fold r.fold with h | ⟨a, b, n, ha, hb, -, h⟩
    · rw [h, hbinary]
    · rw [h, hconstant _ n rfl, hconstant _ a ha, hconstant _ b hb, List.append_nil]
  | unary op x ih =>
    rw [fold, hunary, ← ih]
    rcases foldUnary_cases op x.fold with h | ⟨a, n, ha, -, h⟩
    · rw [h, hunary]
    · rw [h, hconstant _ n rfl, hconstant _ a ha]
  | _ => rfl

theorem leaves_fold (e : Expr) : e.fold.leaves = e.leaves :=
  gather_fold (fun _ _ _ => rfl) (fun _ _ => rfl) (fun _ _ => leaves_of_constant?) e

end Expr

namespace Formula

@[simp] theorem complete_simplify (f : Formula) : f.simplify.complete = f.complete.fold :=
  f.complete.fold.complete_toFormula

theorem value_simplify {σ : Type} (host : Host σ) (stem : String) (f : Formula) :
    f.simplify.value host stem = f.value host stem := by
  simp only [value, ← evaluate_complete host stem, complete_simplify, Expr.evaluate_fold]

theorem fetches_compile_simplify (stem : String) (f : Formula) :
    (f.simplify.compile stem).fetches = (f.compile stem).fetches := by
  simp only [compile, complete_simplify, Expr.fetches_compileFrom, Expr.leaves_fold]

theorem run_compile_simplify_eq {σ : Type} (host : Host σ) (stem : String) (f : Formula) :
    (f.simplify.compile stem).run host = (f.compile stem).run host := by
  rw [run_compile_eq_value, run_compile_eq_value, value_simplify]

/-- A simplified formula fetches the same records as the formula.  Against every host its program
ends in the same way, after the same calls: nothing is dropped, repeated or moved across an
error. -/
theorem compile_simplify (stem : String) (f : Formula) :
    (f.simplify.compile stem).fetches = (f.compile stem).fetches ∧
      ∀ (σ : Type) (host : Host σ),
        (f.simplify.compile stem).run host = (f.compile stem).run host ∧
          (f.simplify.compile stem).run host.logging = (f.compile stem).run host.logging :=
  ⟨fetches_compile_simplify stem f, fun _ host =>
    ⟨run_compile_simplify_eq host stem f, run_compile_simplify_eq host.logging stem f⟩⟩

end Formula

end SceneFormula
