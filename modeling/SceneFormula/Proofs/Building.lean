import SceneFormula.Proofs.Json.Sorted
import SceneFormula.Proofs.NormalForm
import SceneFormula.Proofs.Storage

/-!
# Building formulas step by step

A formula is built by putting operators around it.  Simplification may be interspersed anywhere, and
so may storing and loading: an operator on simplified operands simplifies to the same as one on the
operands themselves, so that only the last simplification counts.
-/

namespace SceneFormula.Formula

/-! ### Steps -/

/-- An operand of a new node: the formula built so far, or another one. -/
inductive Part where
  | current
  | other (g : Formula)

def Part.get (f : Formula) : Part → Formula
  | current => f
  | other g => g

/-- What can be put around the formula built so far. -/
inductive Builder where
  | add (a b : Part)
  | addConstant (a : Part) (n : Int64)
  | mulConstant (a : Part) (n : Int64)
  | binary (op : BinaryOp) (a b : Part)
  | unary (op : UnaryOp) (a : Part)

def Builder.apply (f : Formula) : Builder → Formula
  | add a b => (a.get f).add (b.get f)
  | addConstant a n => (a.get f).addConstant n
  | mulConstant a n => (a.get f).mulConstant n
  | binary op a b => .binary op (some (a.get f)) (some (b.get f))
  | unary op a => .unary op (some (a.get f))

inductive Step where
  | build (b : Builder)
  | simplify
  /-- Stored as a JSON value with sorted keys, and loaded again. -/
  | throughJson
  /-- Stored as a text, and loaded again. -/
  | throughText (layout : Layout)

def Step.apply (f : Formula) : Step → Except DecodeFault Formula
  | build b => .ok (b.apply f)
  | simplify => .ok f.simplify
  | throughJson => ofJson (f.toJson.sorted.mapNumbers .integer)
  | throughText layout => ofStored (String.ofList (f.toJson.write layout []))

/-- The formula after all steps, if it can be loaded wherever it is stored. -/
def afterSteps (f : Formula) : List Step → Except DecodeFault Formula
  | [] => .ok f
  | step :: steps => do (← step.apply f).afterSteps steps

/-- The formula after the builders among the steps. -/
def afterBuilders (f : Formula) : List Step → Formula
  | [] => f
  | .build b :: steps => (b.apply f).afterBuilders steps
  | _ :: steps => f.afterBuilders steps

/-! ### Simplified operands -/

theorem simplify_simplify (f : Formula) : f.simplify.simplify = f.simplify :=
  simplify_of_isNormal (isNormal_simplify f)

theorem simplify_eq_simplify_iff {f g : Formula} :
    f.simplify = g.simplify ↔ f.complete.fold = g.complete.fold :=
  ⟨Expr.toFormula_injective, congrArg Expr.toFormula⟩

theorem simplify_binary_congr (op : BinaryOp) {l l' r r' : Formula} (hl : l.simplify = l'.simplify)
    (hr : r.simplify = r'.simplify) :
    (binary op (some l) (some r)).simplify = (binary op (some l') (some r')).simplify := by
  rw [simplify_eq_simplify_iff] at hl hr ⊢
  simp only [complete, completeOperand, Expr.fold, hl, hr]

theorem simplify_unary_congr (op : UnaryOp) {x x' : Formula} (hx : x.simplify = x'.simplify) :
    (unary op (some x)).simplify = (unary op (some x')).simplify := by
  rw [simplify_eq_simplify_iff] at hx ⊢
  simp only [complete, completeOperand, Expr.fold, hx]

theorem Part.simplify_get_congr {f f' : Formula} (h : f.simplify = f'.simplify) (a : Part) :
    (a.get f).simplify = (a.get f').simplify := by
  cases a with
  | current => exact h
  | other g => rfl

/-- What is put around a formula simplifies alike around one that simplifies alike. -/
theorem Builder.simplify_apply_congr {f f' : Formula} (h : f.simplify = f'.simplify)
    (b : Builder) : (b.apply f).simplify = (b.apply f').simplify := by
  cases b with
  | add a b =>
    exact simplify_binary_congr .add (a.simplify_get_congr h) (b.simplify_get_congr h)
  | addConstant a n => exact simplify_binary_congr .add (a.simplify_get_congr h) rfl
  | mulConstant a n => exact simplify_binary_congr .mul (a.simplify_get_congr h) rfl
  | binary op a b =>
    exact simplify_binary_congr op (a.simplify_get_congr h) (b.simplify_get_congr h)
  | unary op a => exact simplify_unary_congr op (a.simplify_get_congr h)

/-! ### Runs -/

/-- A step puts something around the formula, simplifies it or leaves it as it is, unless the
formula is too high for a text. -/
theorem Step.apply_cases (f : Formula) (step : Step) :
    (∃ b, step = .build b ∧ step.apply f = .ok (b.apply f)) ∨
      ((∀ b, step ≠ .build b) ∧
        ((∃ g, step.apply f = .ok g ∧ g.simplify = f.simplify) ∨
          ∃ layout, step = .throughText layout ∧ 127 < f.height)) := by
  cases step with
  | build b => exact .inl ⟨b, rfl, rfl⟩
  | simplify => exact .inr ⟨nofun, .inl ⟨f.simplify, rfl, f.simplify_simplify⟩⟩
  | throughJson =>
    have hload : ofJson (f.toJson.sorted.mapNumbers .integer) = .ok f := by
      rw [← Json.sorted_mapNumbers, ofJson_sorted_toJson]
    exact .inr ⟨nofun, .inl ⟨f, hload, rfl⟩⟩
  | throughText layout =>
    refine .inr ⟨nofun, ?_⟩
    rcases Nat.lt_or_ge 127 f.height with h | h
    · exact .inr ⟨layout, rfl, h⟩
    · exact .inl ⟨f, ofStored_write_of_height_le h layout, rfl⟩

theorem afterSteps_cons_of_ok {f g : Formula} {step : Step} (h : step.apply f = .ok g)
    (steps : List Step) : f.afterSteps (step :: steps) = g.afterSteps steps := by
  rw [afterSteps, h]
  rfl

theorem afterBuilders_cons_of_ne {step : Step} (h : ∀ b, step ≠ .build b) (f : Formula)
    (steps : List Step) : f.afterBuilders (step :: steps) = f.afterBuilders steps := by
  cases step with
  | build b => exact absurd rfl (h b)
  | _ => rfl

/-- A run breaks off where a formula of more than 127 nodes on a path is stored as a text. -/
def BreaksOff (f : Formula) (steps : List Step) : Prop :=
  ∃ before layout after g, steps = before ++ .throughText layout :: after ∧
    f.afterSteps before = .ok g ∧ 127 < g.height

theorem BreaksOff.cons {f g : Formula} {step : Step} (h : step.apply f = .ok g)
    {steps : List Step} (hg : g.BreaksOff steps) : f.BreaksOff (step :: steps) := by
  obtain ⟨before, layout, after, g', rfl, hrun, hheight⟩ := hg
  exact ⟨step :: before, layout, after, g', rfl, (afterSteps_cons_of_ok h before).trans hrun,
    hheight⟩

/-- The invariant of a run is that the formula built so far simplifies like the one that only the
builders have built. -/
theorem afterSteps_cases {f f' : Formula} (h : f.simplify = f'.simplify) (steps : List Step) :
    (∃ g, f.afterSteps steps = .ok g ∧ g.simplify = (f'.afterBuilders steps).simplify) ∨
      f.BreaksOff steps := by
  induction steps generalizing f f' with
  | nil => exact .inl ⟨f, rfl, h⟩
  | cons step steps ih =>
    have hnext {g g' : Formula} (hg : step.apply f = .ok g) (hsame : g.simplify = g'.simplify)
        (hbuilt : f'.afterBuilders (step :: steps) = g'.afterBuilders steps) :
        (∃ g, f.afterSteps (step :: steps) = .ok g ∧
            g.simplify = (f'.afterBuilders (step :: steps)).simplify) ∨
          f.BreaksOff (step :: steps) := by
      rw [afterSteps_cons_of_ok hg, hbuilt]
      exact (ih hsame).imp_right (BreaksOff.cons hg)
    rcases step.apply_cases f with ⟨b, rfl, hb⟩ | ⟨hne, ⟨g, hg, hsame⟩ | ⟨layout, rfl, hhigh⟩⟩
    · exact hnext hb (b.simplify_apply_congr h) rfl
    · exact hnext hg (hsame.trans h) (afterBuilders_cons_of_ne hne f' steps)
    · exact .inr ⟨[], layout, steps, f, rfl, rfl, hhigh⟩

theorem afterSteps_append (f : Formula) (before after : List Step) :
    f.afterSteps (before ++ after) = f.afterSteps before >>= fun g => g.afterSteps after := by
  induction before generalizing f with
  | nil => rfl
  | cons step before ih =>
    rw [List.cons_append, afterSteps, afterSteps]
    cases step.apply f with
    | error e => rfl
    | ok g => exact ih g

theorem BreaksOff.afterSteps_eq {f : Formula} {steps : List Step} (h : f.BreaksOff steps) :
    f.afterSteps steps = .error .malformed := by
  obtain ⟨before, layout, after, g, rfl, hrun, hheight⟩ := h
  have hstore : (Step.throughText layout).apply g = .error .malformed :=
    ofStored_write_of_lt_height hheight layout
  rw [afterSteps_append, hrun]
  change g.afterSteps (.throughText layout :: after) = _
  rw [afterSteps, hstore]
  rfl

/-- Simplifying early or often makes no difference, and neither does storing and loading: what a run
has built simplifies to the same as what its builders alone have built.  A run builds something
unless it breaks off where a text has no room for the formula. -/
theorem simplify_afterSteps (f : Formula) (steps : List Step) :
    (∀ g, f.afterSteps steps = .ok g → g.simplify = (f.afterBuilders steps).simplify) ∧
      ((∃ g, f.afterSteps steps = .ok g) ↔ ¬ f.BreaksOff steps) := by
  rcases afterSteps_cases (rfl : f.simplify = f.simplify) steps with ⟨g, hg, hsame⟩ | hbreaks
  · refine ⟨fun g' hg' => ?_, fun _ hbreaks => ?_, fun _ => ⟨g, hg⟩⟩
    · rw [hg] at hg'
      rwa [← Except.ok.inj hg']
    · rw [hbreaks.afterSteps_eq] at hg
      cases hg
  · rw [hbreaks.afterSteps_eq]
    exact ⟨nofun, nofun, fun h => absurd hbreaks h⟩

theorem simplify_afterSteps_difference :
    let steps : List Step := [.build (.mulConstant .current 3), .throughJson, .simplify,
      .build (.binary .sub (.other (var "L0")) .current)]
    (truth true).afterSteps steps = .ok (binary .sub (some (var "L0")) (some (number 3))) ∧
      (binary .sub (some (var "L0")) (some (number 3))).simplify =
        ((truth true).afterBuilders steps).simplify := by
  intro steps
  have hrun : (truth true).afterSteps steps =
      .ok (binary .sub (some (var "L0")) (some (number 3))) := rfl
  exact ⟨hrun, (simplify_afterSteps (truth true) steps).1 _ hrun⟩

end SceneFormula.Formula
