import SceneFormula.Proofs.CallLog
import SceneFormula.Proofs.Evaluation
import Mathlib.Data.List.Nodup

/-!
# Compiled formulas

The program of a formula does exactly what the evaluation of the formula does.  The code of a
subtree is followed from an arbitrary stack into arbitrary code after it; what ties the two sides is
that each local of that code finds its own fetch in the list of the whole program.
-/

namespace SceneFormula

/-! ### Names of locals -/

theorem localName_injective (stem : String) : Function.Injective (localName stem) := by
  intro j k h
  have hl : (toString j).toList = (toString k).toList := by
    have h' := congrArg String.toList h
    simpa only [localName, String.toList_append, List.append_cancel_left_eq] using h'
  have hd : Nat.toDigits 10 j = Nat.toDigits 10 k := by
    simpa only [Nat.toString_eq_ofList_toDigits, String.toList_ofList] using hl
  have hj := @Nat.ofDigitChars_ten_toDigits j
  rw [hd, Nat.ofDigitChars_ten_toDigits] at hj
  exact hj.symm

namespace Fetch

/-- The fetch of the property leaf with running number `k`. -/
def ofLeaf (stem : String) : (String × ActorProperty) × Nat → Fetch
  | ((target, p), k) => ⟨localName stem k, ⟨p.place.1, target⟩⟩

theorem find?_name {fs : List Fetch} (h : (fs.map Fetch.name).Nodup) {f : Fetch} (hf : f ∈ fs) :
    fs.find? (·.name == f.name) = some f := by
  induction fs with
  | nil => simp at hf
  | cons g gs ih =>
    rw [List.map_cons, List.nodup_cons] at h
    rcases List.mem_cons.mp hf with rfl | hf
    · simp
    · have hne : g.name ≠ f.name := by
        intro heq
        exact h.1 (heq ▸ List.mem_map_of_mem hf)
      rw [List.find?_cons_of_neg (by simpa using hne)]
      exact ih h.2 hf

end Fetch

namespace Expr

/-- The property leaves of an expression from left to right, each with the actor it looks at. -/
def leaves : Expr → List (String × ActorProperty)
  | property target p => [(target, p)]
  | binary _ l r => l.leaves ++ r.leaves
  | unary _ x => x.leaves
  | _ => []

theorem fetches_compileFrom (stem : String) (e : Expr) (k : Nat) :
    (e.compileFrom stem k).fetches = (e.leaves.zipIdx k).map (Fetch.ofLeaf stem) := by
  induction e generalizing k with
  | binary op l r ihl ihr =>
    simp only [compileFrom, leaves, List.zipIdx_append, List.map_append]
    rw [ihl, ihr, List.length_map, List.length_zipIdx]
  | unary op x ih => exact ih k
  | property target p =>
    simp only [compileFrom, leaves, List.zipIdx_singleton, List.map_singleton, Fetch.ofLeaf,
      p.place_eq]
  | _ => rfl

theorem length_fetches_compileFrom (stem : String) (e : Expr) (k : Nat) :
    (e.compileFrom stem k).fetches.length = e.leaves.length := by
  rw [fetches_compileFrom, List.length_map, List.length_zipIdx]

theorem nodup_fetches_compileFrom (stem : String) (e : Expr) (k : Nat) :
    ((e.compileFrom stem k).fetches.map Fetch.name).Nodup := by
  have hname : Fetch.name ∘ Fetch.ofLeaf stem = localName stem ∘ Prod.snd := rfl
  rw [fetches_compileFrom, List.map_map, hname, ← List.map_map, List.zipIdx_map_snd]
  exact List.Nodup.map (localName_injective stem) List.nodup_range'

end Expr

/-! ### Records read by an evaluation -/

namespace Evaluation

variable {σ α β : Type}

/-- Whenever `m` ends well, it has read `n` records. -/
def Reads (m : Evaluation σ α) (n : Nat) : Prop :=
  ∀ k, m.run k = (fun p => (p.1, k + n)) <$> m.run k

theorem reads_pure (a : α) : Reads (pure a : Evaluation σ α) 0 :=
  fun _ => rfl

theorem reads_lift (m : Run σ α) : Reads (m : Evaluation σ α) 0 := by
  intro k
  simp

theorem Reads.run_bind {m : Evaluation σ α} {n : Nat} (h : Reads m n) (f : α → Evaluation σ β)
    (k : Nat) : (m >>= f).run k = m.run k >>= fun p => (f p.1).run (k + n) := by
  rw [StateT.run_bind, h k]
  simp only [bind_map_left]

theorem Reads.bind {m : Evaluation σ α} {n n' : Nat} {f : α → Evaluation σ β} (h : Reads m n)
    (hf : ∀ a, Reads (f a) n') : Reads (m >>= f) (n + n') := by
  intro k
  rw [h.run_bind, map_bind]
  congr 1
  funext p
  rw [← Nat.add_assoc]
  exact hf p.1 (k + n)

end Evaluation

namespace Expr

variable {σ : Type}

theorem reads_evaluate (host : Host σ) (stem : String) (e : Expr) :
    Evaluation.Reads (e.evaluate host stem) e.leaves.length := by
  induction e with
  | number n => exact Evaluation.reads_pure _
  | truth b => exact Evaluation.reads_pure _
  | var id => exact Evaluation.reads_lift _
  | property target p =>
    intro k
    simp [evaluate, ActorProperty.evaluate, leaves]
  | binary op l r ihl ihr =>
    rw [leaves, List.length_append, evaluate]
    exact ihl.bind fun a => ihr.bind fun b => Evaluation.reads_lift _
  | unary op x ih =>
    exact ih.bind fun a => Evaluation.reads_lift _

end Expr

/-! ### Running compiled code -/

namespace Program

variable {σ : Type}

theorem steps_append (host : Host σ) (fetches : List Fetch) (stack : List Int64)
    (code more : List Instruction) :
    steps host fetches stack (code ++ more) =
      steps host fetches stack code >>= fun stack => steps host fetches stack more := by
  induction code generalizing stack with
  | nil => simp [steps]
  | cons i code ih =>
    simp only [List.cons_append, steps, bind_assoc]
    congr 1
    funext stack
    exact ih stack

theorem step_binary (host : Host σ) (fetches : List Fetch) (a b : Int64) (stack : List Int64)
    (op : BinaryOp) :
    step host fetches (b :: a :: stack) (.binary op) = (· :: stack) <$> op.apply a b := by
  simp only [step, BinaryOp.apply]
  cases h : op.result? a b with
  | some n => simp
  | none =>
    simp only [fail, BinaryOp.toError_zeroDivisor h]
    rfl

theorem step_unary (host : Host σ) (fetches : List Fetch) (x : Int64) (stack : List Int64)
    (op : UnaryOp) :
    step host fetches (x :: stack) (.unary op) = (· :: stack) <$> op.apply host x := by
  obtain rfl | ⟨n, h⟩ := op.eq_random_or_exists_result? x
  · simp [UnaryOp.apply]
  · simp [step_unary_of_result? _ _ h, UnaryOp.apply_of_result? h]

/-- A property is read by its slot, and by a shift if it counts pixels or tiles. -/
theorem steps_code (host : Host σ) {fetches : List Fetch} {f : Fetch} (stack : List Int64)
    (p : ActorProperty) (h : fetches.find? (·.name == f.name) = some f) :
    steps host fetches stack (p.code f.name) =
      (fun x => p.ofSlot x :: stack) <$> host.slot f p.slot := by
  cases p <;>
    simp [ActorProperty.code, ActorProperty.shift?, ActorProperty.ofSlot, ActorProperty.slot,
      steps, step, h, BinaryOp.result?] <;> rfl

/-- The code of an expression pushes its value, and the code after it goes on from there. -/
theorem steps_compileFrom (host : Host σ) (stem : String) (fetches : List Fetch) (e : Expr)
    (k : Nat) (stack : List Int64) (more : List Instruction)
    (h : ∀ f ∈ (e.compileFrom stem k).fetches, fetches.find? (·.name == f.name) = some f) :
    steps host fetches stack ((e.compileFrom stem k).code ++ more) =
      (e.evaluate host stem).run k >>= fun p => steps host fetches (p.1 :: stack) more := by
  induction e generalizing k stack more with
  | number n => simp [Expr.compileFrom, Expr.evaluate, steps, step]
  | truth b => cases b <;> simp [Expr.compileFrom, Expr.evaluate, steps, step] <;> rfl
  | var id => simp [Expr.compileFrom, Expr.evaluate, steps, step]
  | property target p =>
    have hf := h ⟨localName stem k, ⟨p.recordKind, target⟩⟩ (by simp [Expr.compileFrom])
    rw [steps_append, Expr.compileFrom, steps_code host stack p hf]
    simp [Expr.evaluate, ActorProperty.evaluate, p.place_eq]
  | binary op l r ihl ihr =>
    have hl : ∀ f ∈ (l.compileFrom stem k).fetches,
        fetches.find? (·.name == f.name) = some f :=
      fun f hf => h f (List.mem_append_left _ hf)
    have hr : ∀ f ∈ (r.compileFrom stem (k + l.leaves.length)).fetches,
        fetches.find? (·.name == f.name) = some f := by
      intro f hf
      refine h f (List.mem_append_right _ ?_)
      rwa [l.length_fetches_compileFrom]
    simp only [Expr.compileFrom, Expr.evaluate, List.append_assoc, l.length_fetches_compileFrom]
    -- The right operand numbers its records from where the left one ends, in code and evaluation.
    rw [ihl k stack _ hl, (l.reads_evaluate host stem).run_bind, bind_assoc]
    congr 1
    funext p
    rw [ihr _ _ _ hr, StateT.run_bind, bind_assoc]
    congr 1
    funext q
    simp only [List.cons_append, List.nil_append, steps, step_binary]
    simp
  | unary op x ih =>
    simp only [Expr.compileFrom, Expr.evaluate, List.append_assoc]
    rw [ih k stack _ h, StateT.run_bind, bind_assoc]
    congr 1
    funext p
    simp only [List.cons_append, List.nil_append, steps, step_unary]
    simp

/-- Every local of a compiled program finds the fetch that was made for it. -/
theorem run_compileFrom (host : Host σ) (stem : String) (e : Expr) (k : Nat) :
    (e.compileFrom stem k).run host = (e.evaluate host stem).run' k := by
  have h : ∀ f ∈ (e.compileFrom stem k).fetches,
      (e.compileFrom stem k).fetches.find? (·.name == f.name) = some f :=
    fun f hf => Fetch.find?_name (e.nodup_fetches_compileFrom stem k) hf
  have hsteps := steps_compileFrom host stem _ e k [] [] h
  rw [List.append_nil] at hsteps
  rw [run, hsteps, StateT.run'_eq]
  simp [steps]

end Program

namespace Formula

variable {σ : Type}

theorem run_compile_eq_value (host : Host σ) (stem : String) (f : Formula) :
    (f.compile stem).run host = f.value host stem := by
  rw [compile, Program.run_compileFrom, evaluate_complete, value]

/-- The program of a formula gives the value of the formula or its first error.  Against a host with
a log the two agree as well, so they make the same calls in the same order. -/
theorem run_compile (host : Host σ) (stem : String) (f : Formula) :
    (f.compile stem).run host = f.value host stem ∧
      (f.compile stem).run host.logging = f.value host.logging stem :=
  ⟨run_compile_eq_value host stem f, run_compile_eq_value host.logging stem f⟩

end Formula

end SceneFormula
