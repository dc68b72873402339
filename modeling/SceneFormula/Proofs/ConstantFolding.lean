import SceneFormula.Proofs.Nodes
import SceneFormula.Proofs.Simplification

/-!
# Constant formulas

A formula whose nodes ask nothing of the world has one outcome in every world: a value or a division
by zero.  Simplification tells the two apart.  In the first case it leaves the value, and in the
second one no literal.
-/

namespace SceneFormula

namespace Formula

/-- The nodes whose value is up to the world that a program runs in. -/
inductive AsksHost : Formula → Prop
  | var (id : String) : AsksHost (var id)
  | property (target : String) (p : ActorProperty) : AsksHost (property target p)
  | random (x : Option Formula) : AsksHost (unary .random x)

def IsClosed (f : Formula) : Prop := ∀ g ∈ f.preorder, ¬ g.AsksHost

theorem isClosed_iff {f : Formula} :
    f.IsClosed ↔ ¬ f.AsksHost ∧ ∀ x ∈ f.operands, x.IsClosed :=
  forall_mem_preorder_iff f

theorem isClosed_number (n : Int64) : (number n).IsClosed :=
  isClosed_iff.mpr ⟨nofun, by simp [operands]⟩

theorem isClosed_binary_iff {op : BinaryOp} {l r : Option Formula} :
    (binary op l r).IsClosed ↔ (∀ x ∈ l, x.IsClosed) ∧ ∀ x ∈ r, x.IsClosed := by
  have hasks : ¬ (binary op l r).AsksHost := nofun
  simp only [isClosed_iff (f := binary op l r), hasks, not_false_eq_true, true_and, operands,
    List.mem_append, Option.mem_toList, Option.mem_def, or_imp, forall_and]

theorem isClosed_unary_iff {op : UnaryOp} {x : Option Formula} :
    (unary op x).IsClosed ↔ op ≠ .random ∧ ∀ y ∈ x, y.IsClosed := by
  have hasks : (unary op x).AsksHost ↔ op = .random := by
    constructor
    · rintro ⟨⟩
      rfl
    · rintro rfl
      exact .random x
  simp only [isClosed_iff (f := unary op x), hasks, operands, Option.mem_toList,
    Option.mem_def, ne_eq]

mutual

/-- The formula with every text replaced by the tree that it spells. -/
def readTexts : Formula → Formula
  | text source => (Expr.ofText source).toFormula
  | binary op l r => binary op (readTextsOperand l) (readTextsOperand r)
  | unary op x => unary op (readTextsOperand x)
  | f => f

def readTextsOperand : Option Formula → Option Formula
  | none => none
  | some f => some f.readTexts

end

mutual

/-- An absent operand asks nothing, and so does the zero that completion puts in its place. -/
theorem isClosed_complete_iff (f : Formula) :
    f.complete.toFormula.IsClosed ↔ f.readTexts.IsClosed := by
  cases f with
  | binary op l r =>
    simp only [complete, Expr.toFormula, readTexts, isClosed_binary_iff, Option.mem_some_iff,
      forall_eq', isClosed_completeOperand_iff l, isClosed_completeOperand_iff r]
  | unary op x =>
    simp only [complete, Expr.toFormula, readTexts, isClosed_unary_iff, Option.mem_some_iff,
      forall_eq', isClosed_completeOperand_iff x]
  | _ => simp only [complete, Expr.toFormula, readTexts]

theorem isClosed_completeOperand_iff (x : Option Formula) :
    (completeOperand x).toFormula.IsClosed ↔ ∀ y ∈ readTextsOperand x, y.IsClosed := by
  cases x with
  | none => simp [completeOperand, readTextsOperand, Expr.toFormula, isClosed_number]
  | some f =>
    simp only [completeOperand, readTextsOperand, Option.mem_some_iff, forall_eq',
      isClosed_complete_iff f]

end

end Formula

namespace Evaluation

variable {σ α β : Type}

/-- Whatever record comes next, `m` fails at once. -/
def Fails (m : Evaluation σ α) (e : Error) : Prop := ∀ k, m.run k = (throw e : Run σ (α × Nat))

theorem Fails.bind {m : Evaluation σ α} {e : Error} (h : Fails m e) (f : α → Evaluation σ β) :
    Fails (m >>= f) e := by
  intro k
  rw [StateT.run_bind, h k]
  rfl

end Evaluation

namespace Expr

open Formula (isClosed_binary_iff isClosed_unary_iff)

variable {σ : Type}

theorem isClosed_of_constant? {e : Expr} {n : Int64} (h : e.constant? = some n) :
    e.toFormula.IsClosed := by
  cases e with
  | number m => exact Formula.isClosed_number m
  | truth b => exact Formula.isClosed_iff.mpr ⟨nofun, by simp [toFormula, Formula.operands]⟩
  | _ => cases h

/-- Folding drops only operators on literals, so what it makes a literal of was closed. -/
theorem isClosed_of_constant?_fold {e : Expr} {n : Int64} (h : e.fold.constant? = some n) :
    e.toFormula.IsClosed := by
  induction e generalizing n with
  | binary op l r ihl ihr =>
    rw [fold] at h
    rcases foldBinary_cases op l.fold r.fold with hfold | ⟨a, b, m, ha, hb, -, -⟩
    · rw [hfold] at h
      cases h
    · refine isClosed_binary_iff.mpr ⟨?_, ?_⟩
      · simpa using ihl ha
      · simpa using ihr hb
  | unary op x ih =>
    rw [fold] at h
    rcases foldUnary_cases op x.fold with hfold | ⟨a, m, ha, hm, -⟩
    · rw [hfold] at h
      cases h
    · refine isClosed_unary_iff.mpr ⟨?_, ?_⟩
      · rintro rfl
        cases hm
      · simpa using ih ha
  | _ => exact isClosed_of_constant? h

theorem foldBinary_of_constant? {op : BinaryOp} {l r : Expr} {a b n : Int64}
    (ha : l.constant? = some a) (hb : r.constant? = some b) (hn : op.result? a b = some n) :
    foldBinary op l r = .number n := by
  simp only [foldBinary, ha, hb, hn]

theorem foldUnary_of_constant? {op : UnaryOp} {x : Expr} {a n : Int64}
    (ha : x.constant? = some a) (hn : op.result? a = some n) : foldUnary op x = .number n := by
  simp only [foldUnary, ha, hn]

theorem evaluate_of_constant?_fold (host : Host σ) (stem : String) {e : Expr} {n : Int64}
    (h : e.fold.constant? = some n) : e.evaluate host stem = pure n := by
  rw [← evaluate_fold]
  exact evaluate_of_constant? host stem h

/-- A closed expression folds to a literal, or some division in it by zero makes the whole of it
fail: nothing that comes before the division could fail otherwise. -/
theorem constant?_fold_or_fails (host : Host σ) (stem : String) {e : Expr}
    (h : e.toFormula.IsClosed) :
    (∃ n, e.fold.constant? = some n) ∨ ∃ err, Evaluation.Fails (e.evaluate host stem) err := by
  induction e with
  | number n => exact .inl ⟨n, rfl⟩
  | truth b => exact .inl ⟨b.toInt64, rfl⟩
  | var id => exact absurd (.var id) (Formula.isClosed_iff.mp h).1
  | property target p => exact absurd (.property target p) (Formula.isClosed_iff.mp h).1
  | binary op l r ihl ihr =>
    obtain ⟨hl, hr⟩ := isClosed_binary_iff.mp h
    rcases ihl (hl _ rfl) with ⟨a, ha⟩ | ⟨err, herr⟩
    · have hleft := evaluate_of_constant?_fold host stem ha
      rcases ihr (hr _ rfl) with ⟨b, hb⟩ | ⟨err, herr⟩
      · have hright := evaluate_of_constant?_fold host stem hb
        cases hn : op.result? a b with
        | some n => exact .inl ⟨n, by rw [fold, foldBinary_of_constant? ha hb hn]; rfl⟩
        | none =>
          refine .inr ⟨op.byZero, fun k => ?_⟩
          simp only [evaluate, hleft, hright, pure_bind, BinaryOp.apply, hn]
          rfl
      · refine .inr ⟨err, ?_⟩
        rw [evaluate, hleft, pure_bind]
        exact herr.bind _
    · exact .inr ⟨err, herr.bind _⟩
  | unary op x ih =>
    obtain ⟨hop, hx⟩ := isClosed_unary_iff.mp h
    rcases ih (hx _ rfl) with ⟨a, ha⟩ | ⟨err, herr⟩
    · cases hn : op.result? a with
      | some n => exact .inl ⟨n, by rw [fold, foldUnary_of_constant? ha hn]; rfl⟩
      | none => exact absurd (UnaryOp.result?_eq_none_iff.mp hn) hop
    · exact .inr ⟨err, herr.bind _⟩

end Expr

namespace Formula

variable {σ : Type}

theorem constant?_simplify (f : Formula) : f.simplify.constant? = f.complete.fold.constant? :=
  Expr.constant?_toFormula _

theorem value_of_evaluate_eq_pure {host : Host σ} {stem : String} {f : Formula} {n : Int64}
    (h : f.complete.evaluate host stem = pure n) : f.value host stem = pure n := by
  rw [value, ← evaluate_complete, h]
  rfl

theorem value_of_fails {host : Host σ} {stem : String} {f : Formula} {err : Error}
    (h : Evaluation.Fails (f.complete.evaluate host stem) err) :
    f.value host stem = throw err := by
  rw [value, ← evaluate_complete, StateT.run'_eq, h 0]
  rfl

/-- Simplification makes a literal of a formula just if the formula asks nothing of a host, once its
texts are read, and its program gives this literal's value: in any world, from any state of it. -/
theorem constant?_simplify_eq_some_iff (host : Host σ) (s : σ) (stem : String) (f : Formula)
    (n : Int64) :
    f.simplify.constant? = some n ↔
      f.readTexts.IsClosed ∧ (((f.compile stem).run host).run s).1 = .ok n := by
  rw [constant?_simplify, run_compile_eq_value, ← isClosed_complete_iff]
  constructor
  · intro h
    have heval := Expr.evaluate_of_constant?_fold host stem h
    refine ⟨Expr.isClosed_of_constant?_fold h, ?_⟩
    rw [value_of_evaluate_eq_pure heval]
    rfl
  · rintro ⟨hclosed, hrun⟩
    rcases Expr.constant?_fold_or_fails host stem hclosed with ⟨m, hm⟩ | ⟨err, herr⟩
    · have heval := Expr.evaluate_of_constant?_fold host stem hm
      rw [value_of_evaluate_eq_pure heval] at hrun
      obtain rfl : m = n := Except.ok.inj hrun
      exact hm
    · rw [value_of_fails herr] at hrun
      cases hrun

end Formula

end SceneFormula
