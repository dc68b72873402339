import SceneFormula.Proofs.Simplification
import SceneFormula.Proofs.StackDiscipline
import Mathlib.Order.Bounds.Basic
import Mathlib.Order.Lattice

/-!
# The cost of a program

A program costs its instructions, and the room that its stack needs where it stands highest.  Both
can be counted on the expression that is compiled: an operator runs its right operand on top of the
value of the left one.  Folding puts one instruction in the place of at least two and changes
nothing else, so it saves code wherever it does anything, and never takes room.
-/

namespace SceneFormula

/-! ### Room on the stack -/

/-- The greatest height of the stack at any place in code, counted without running it. -/
def peakHeight : List Instruction → Int
  | [] => 0
  | i :: code => max 0 (i.effect + peakHeight code)

theorem peakHeight_nonneg (code : List Instruction) : 0 ≤ peakHeight code := by
  cases code with
  | nil => exact le_rfl
  | cons i code => exact le_max_left 0 _

theorem staticHeight_le_peakHeight_append (before after : List Instruction) :
    staticHeight before ≤ peakHeight (before ++ after) := by
  induction before with
  | nil => exact peakHeight_nonneg after
  | cons i before ih =>
    rw [staticHeight, List.cons_append, peakHeight]
    exact le_max_of_le_right (by omega)

theorem exists_prefix_staticHeight_eq (code : List Instruction) :
    ∃ before, before <+: code ∧ staticHeight before = peakHeight code := by
  induction code with
  | nil => exact ⟨[], List.nil_prefix, rfl⟩
  | cons i code ih =>
    obtain ⟨before, hbefore, hheight⟩ := ih
    rcases le_total (i.effect + peakHeight code) 0 with hle | hle
    · exact ⟨[], List.nil_prefix, by rw [peakHeight, max_eq_left hle, staticHeight]⟩
    · refine ⟨i :: before, (List.prefix_cons_inj i).mpr hbefore, ?_⟩
      rw [peakHeight, max_eq_right hle, staticHeight, hheight]

/-- The peak is the greatest height over all prefixes of the code. -/
theorem isGreatest_peakHeight (code : List Instruction) :
    IsGreatest {height | ∃ before, before <+: code ∧ staticHeight before = height}
      (peakHeight code) := by
  refine ⟨exists_prefix_staticHeight_eq code, ?_⟩
  rintro _ ⟨before, ⟨after, rfl⟩, rfl⟩
  exact staticHeight_le_peakHeight_append before after

/-- A machine that runs the code never has more values on its stack. -/
theorem Program.Executes.length_le_peakHeight {σ : Type} {host : Host σ} {fetches : List Fetch}
    {before : List Instruction} {stack : List Int64} {s t : σ} {calls : List HostCall}
    (h : Executes host fetches s before calls stack t) (after : List Instruction) :
    (stack.length : Int) ≤ peakHeight (before ++ after) := by
  rw [h.length_eq]
  exact staticHeight_le_peakHeight_append before after

theorem peakHeight_append (code more : List Instruction) :
    peakHeight (code ++ more) = max (peakHeight code) (staticHeight code + peakHeight more) := by
  induction code with
  | nil =>
    rw [List.nil_append, staticHeight, peakHeight, Int.zero_add,
      max_eq_right (peakHeight_nonneg more)]
  | cons i code ih =>
    rw [List.cons_append, peakHeight, peakHeight, staticHeight, ih, max_assoc, Int.add_assoc,
      max_add_add_left]

/-! ### Code of an expression -/

namespace ActorProperty

theorem staticHeight_code (p : ActorProperty) (name : String) : staticHeight (p.code name) = 1 := by
  cases p <;> rfl

theorem peakHeight_code (p : ActorProperty) (name : String) :
    peakHeight (p.code name) = if p.shift?.isSome then 2 else 1 := by
  cases p <;> rfl

theorem length_code (p : ActorProperty) (name : String) :
    (p.code name).length = if p.shift?.isSome then 3 else 1 := by
  cases p <;> rfl

end ActorProperty

namespace Expr

def codeLength : Expr → Nat
  | property _ p => if p.shift?.isSome then 3 else 1
  | binary _ l r => l.codeLength + r.codeLength + 1
  | unary _ x => x.codeLength + 1
  | _ => 1

/-- The greatest height of the stack while the code of an expression runs on an empty one. -/
def peak : Expr → Int
  | property _ p => if p.shift?.isSome then 2 else 1
  | binary _ l r => max l.peak (1 + r.peak)
  | unary _ x => x.peak
  | _ => 1

theorem codeLength_pos (e : Expr) : 0 < e.codeLength := by
  cases e with
  | property target p =>
    rw [codeLength]
    split <;> decide
  | _ => exact Nat.succ_pos _

theorem one_le_peak (e : Expr) : 1 ≤ e.peak := by
  induction e with
  | property target p =>
    rw [peak]
    split <;> decide
  | binary op l r ihl ihr => exact le_max_of_le_left ihl
  | unary op x ih => exact ih
  | _ => exact le_rfl

theorem length_code_compileFrom (stem : String) (e : Expr) (k : Nat) :
    (e.compileFrom stem k).code.length = e.codeLength := by
  induction e generalizing k with
  | property target p => exact p.length_code _
  | binary op l r ihl ihr =>
    simp only [compileFrom, List.length_append, ihl, ihr, codeLength, List.length_singleton]
  | unary op x ih =>
    simp only [compileFrom, List.length_append, ih, codeLength, List.length_singleton]
  | _ => rfl

theorem staticHeight_compileFrom (stem : String) (e : Expr) (k : Nat) :
    staticHeight (e.compileFrom stem k).code = 1 := by
  induction e generalizing k with
  | property target p => exact p.staticHeight_code _
  | binary op l r ihl ihr =>
    simp only [compileFrom, staticHeight_append, ihl, ihr]
    rfl
  | unary op x ih =>
    simp only [compileFrom, staticHeight_append, ih]
    rfl
  | _ => rfl

theorem peakHeight_compileFrom (stem : String) (e : Expr) (k : Nat) :
    peakHeight (e.compileFrom stem k).code = e.peak := by
  induction e generalizing k with
  | property target p => exact p.peakHeight_code _
  | binary op l r ihl ihr =>
    have hop : peakHeight [.binary op] = 0 := rfl
    have hr := one_le_peak r
    simp only [compileFrom, peakHeight_append, staticHeight_append, staticHeight_compileFrom, ihl,
      ihr, hop, peak]
    -- The operator itself lowers the stack, and finds its two operands there.
    exact max_eq_left (le_max_of_le_right (by omega))
  | unary op x ih =>
    have hop : peakHeight [.unary op] = 0 := rfl
    simp only [compileFrom, peakHeight_append, staticHeight_compileFrom, ih, hop, peak]
    exact max_eq_left (one_le_peak x)
  | _ => rfl

/-! ### Folding -/

theorem fold_eq_or_codeLength_lt (e : Expr) : e.fold = e ∨ e.fold.codeLength < e.codeLength := by
  induction e with
  | binary op l r ihl ihr =>
    have hl := l.codeLength_pos
    have hr := r.codeLength_pos
    rw [fold]
    rcases foldBinary_cases op l.fold r.fold with h | ⟨a, b, n, -, -, -, h⟩
    · rw [h]
      rcases ihl with hleft | hleft
      · rcases ihr with hright | hright
        · exact .inl (by rw [hleft, hright])
        · exact .inr (by simp only [hleft, codeLength]; omega)
      · have hright : r.fold.codeLength ≤ r.codeLength := by
          rcases ihr with hright | hright
          · rw [hright]
          · exact hright.le
        exact .inr (by simp only [codeLength]; omega)
    · rw [h]
      exact .inr (by simp only [codeLength]; omega)
  | unary op x ih =>
    have hx := x.codeLength_pos
    rw [fold]
    rcases foldUnary_cases op x.fold with h | ⟨a, n, -, -, h⟩
    · rw [h]
      rcases ih with hx | hx
      · exact .inl (by rw [hx])
      · exact .inr (Nat.succ_lt_succ hx)
    · rw [h]
      exact .inr (Nat.succ_lt_succ hx)
  | _ => exact .inl rfl

theorem codeLength_fold_le (e : Expr) : e.fold.codeLength ≤ e.codeLength := by
  rcases e.fold_eq_or_codeLength_lt with h | h
  · rw [h]
  · exact h.le

theorem codeLength_fold_eq_iff {e : Expr} : e.fold.codeLength = e.codeLength ↔ e.fold = e :=
  ⟨fun h => e.fold_eq_or_codeLength_lt.resolve_right h.not_lt, fun h => by rw [h]⟩

/-- A literal takes the place of one value on the stack, and no expression takes less. -/
theorem peak_fold_le (e : Expr) : e.fold.peak ≤ e.peak := by
  induction e with
  | binary op l r ihl ihr =>
    rw [fold]
    rcases foldBinary_cases op l.fold r.fold with h | ⟨a, b, n, -, -, -, h⟩
    · rw [h]
      exact max_le_max ihl (Int.add_le_add_left ihr 1)
    · rw [h]
      exact one_le_peak _
  | unary op x ih =>
    rw [fold]
    rcases foldUnary_cases op x.fold with h | ⟨a, n, -, -, h⟩
    · rw [h]
      exact ih
    · rw [h]
      exact one_le_peak _
  | _ => exact le_rfl

end Expr

namespace Formula

/-- Simplification costs neither code nor room on the stack.  The code is as long as before just if
the program is the same, and so just if nothing was folded. -/
theorem cost_compile_simplify (stem : String) (f : Formula) :
    (f.simplify.compile stem).code.length ≤ (f.compile stem).code.length ∧
      peakHeight (f.simplify.compile stem).code ≤ peakHeight (f.compile stem).code ∧
      ((f.simplify.compile stem).code.length = (f.compile stem).code.length ↔
        f.simplify.compile stem = f.compile stem) ∧
      (f.simplify.compile stem = f.compile stem ↔ f.simplify = f.complete.toFormula) := by
  have hfold : f.simplify = f.complete.toFormula ↔ f.complete.fold = f.complete :=
    ⟨Expr.toFormula_injective, congrArg Expr.toFormula⟩
  have hlength : (f.simplify.compile stem).code.length = (f.compile stem).code.length ↔
      f.complete.fold = f.complete := by
    simp only [compile, complete_simplify, Expr.length_code_compileFrom,
      Expr.codeLength_fold_eq_iff]
  have hprogram : f.simplify.compile stem = f.compile stem ↔ f.complete.fold = f.complete := by
    refine ⟨fun h => hlength.mp (by rw [h]), fun h => ?_⟩
    rw [compile, complete_simplify, h, compile]
  refine ⟨?_, ?_, hlength.trans hprogram.symm, hprogram.trans hfold.symm⟩
  · simp only [compile, complete_simplify, Expr.length_code_compileFrom]
    exact f.complete.codeLength_fold_le
  · simp only [compile, complete_simplify, Expr.peakHeight_compileFrom]
    exact f.complete.peak_fold_le

/-- A product that is worked out no longer stands on top of the variable before it. -/
example :
    let f := binary .add (some (var "0"))
      (some (binary .mul (some (number 2)) (some (number 3))))
    peakHeight (f.compile "t").code = 3 ∧ peakHeight (f.simplify.compile "t").code = 2 := by
  decide

end Formula

end SceneFormula
