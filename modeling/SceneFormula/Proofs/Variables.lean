import SceneFormula.Formula.Variables
import SceneFormula.Proofs.Nodes
import SceneFormula.Proofs.Parsing
import SceneFormula.Proofs.References
import SceneFormula.Proofs.Simplification
import Mathlib

/-!
# Variables of a formula and of its program

The variables of a formula are found in four ways: by a walk with a scan of its texts, by a search,
by reading the texts as expressions, and in compiled code.  All keep the order in which a reader
meets the variables.  Only a text that cannot be read makes a difference: a scan still finds its
references, while as an expression it is zero.
-/

namespace SceneFormula

namespace Instruction

def variableId? : Instruction → Option String
  | var id => some id
  | _ => none

end Instruction

/-- The variables that a program loads, in order and with repetitions. -/
def Program.variableIds (p : Program) : List String := p.code.filterMap Instruction.variableId?

namespace Formula

theorem variableIds_eq_flatMap (f : Formula) :
    f.variableIds = f.preorder.flatMap ownVariableIds := by
  rw [variableIds, toList_walk]

theorem variableIds_eq_append (f : Formula) :
    f.variableIds = f.ownVariableIds ++ f.operands.flatMap variableIds := by
  have hfun : variableIds = fun g => g.preorder.flatMap ownVariableIds :=
    funext variableIds_eq_flatMap
  simp only [hfun]
  rw [preorder_eq_cons, List.flatMap_cons, List.flatMap_assoc]

theorem mentions_iff {id : String} {f : Formula} : f.mentions id = true ↔ id ∈ f.variableIds := by
  rw [mentions, Walk.any_eq_any_toList, toList_walk, variableIds_eq_flatMap, List.any_eq_true,
    List.mem_flatMap]
  simp only [List.contains_iff_mem]

end Formula

namespace Expr

/-- The variables of an expression from left to right. -/
def variableIds : Expr → List String
  | var id => [id]
  | binary _ l r => l.variableIds ++ r.variableIds
  | unary _ x => x.variableIds
  | _ => []

theorem variableIds_toFormula (e : Expr) : e.toFormula.variableIds = e.variableIds := by
  induction e with
  | binary op l r ihl ihr =>
    rw [Formula.variableIds_eq_append, operands_toFormula_binary]
    simp only [List.flatMap_cons, List.flatMap_nil, List.append_nil, ihl, ihr]
    rfl
  | unary op x ih =>
    rw [Formula.variableIds_eq_append, operands_toFormula_unary]
    simp only [List.flatMap_cons, List.flatMap_nil, List.append_nil, ih]
    rfl
  | _ => exact Formula.variableIds_eq_append _

theorem variableIds_of_constant? {e : Expr} {n : Int64} (h : e.constant? = some n) :
    e.variableIds = [] := by
  cases e <;> simp_all [constant?, variableIds]

theorem variableIds_fold (e : Expr) : e.fold.variableIds = e.variableIds :=
  gather_fold (fun _ _ _ => rfl) (fun _ _ => rfl) (fun _ _ => variableIds_of_constant?) e

theorem variableIds_compileFrom (stem : String) (e : Expr) (k : Nat) :
    (e.compileFrom stem k).variableIds = e.variableIds := by
  induction e generalizing k with
  | property target p => cases p <;> rfl
  | binary op l r ihl ihr =>
    have hl := ihl k
    have hr := ihr (k + (l.compileFrom stem k).fetches.length)
    rw [Program.variableIds] at hl hr
    simp only [compileFrom, Program.variableIds, List.filterMap_append, hl, hr, variableIds]
    exact List.append_nil _
  | unary op x ih =>
    have hx := ih k
    rw [Program.variableIds] at hx
    simp only [compileFrom, Program.variableIds, List.filterMap_append, hx, variableIds]
    exact List.append_nil _
  | _ => rfl

end Expr

/-! ### Variables of a text -/

namespace Grammar

/-- A derivation keeps the references of its tokens in order, through all levels and in calls. -/
theorem Derives.variableIds_eq {p : Phrase} {ts : List Token} {e : Expr} {c : Nat}
    (h : Derives p ts e c) : e.variableIds = ts.filterMap Token.referenceId? := by
  induction h with
  | number | yes | no | reference => rfl
  | operand _ ih | tighter _ ih => exact ih
  | parenthesised _ ih =>
    rw [List.cons_append, List.filterMap_cons_none rfl, List.filterMap_append, ← ih]
    exact (List.append_nil _).symm
  | unaryCall _ _ ih =>
    rw [List.cons_append, List.cons_append, List.filterMap_cons_none rfl,
      List.filterMap_cons_none rfl, List.filterMap_append, ← ih]
    exact (List.append_nil _).symm
  | binaryCall _ _ _ iha ihb =>
    simp only [List.cons_append, List.append_assoc, List.filterMap_cons, List.filterMap_append,
      ← iha, ← ihb, Token.referenceId?, Expr.variableIds, List.filterMap_nil, List.append_nil]
  | minus _ ih | bang _ ih | tilde _ ih =>
    rw [List.filterMap_cons_none rfl, ← ih]
    rfl
  | @between k row t op ts us l r c d hrow hop _ _ ihl ihr =>
    have ht : t.referenceId? = none := by
      have hbinary := binary?_eq_some_iff.mpr ⟨row, hrow, hop⟩
      cases t with
      | reference id => cases hbinary
      | _ => rfl
    rw [List.filterMap_append, List.filterMap_cons_none ht, ← ihl, ← ihr]
    rfl

end Grammar

namespace Expr

theorem variableIds_of_ofText? {source : String} {e : Expr} (h : ofText? source = .ok e) :
    e.variableIds = Reference.ids source := by
  obtain ⟨lexemes, c, hlex, -, hd⟩ := exists_derives_of_ofText? h
  rw [hd.variableIds_eq, Reference.ids, Lexer.scan_eq_filterMap_of_lexemes hlex,
    List.filterMap_map]
  rfl

theorem variableIds_ofText (source : String) :
    (ofText source).variableIds = Reference.ids source ∨ (ofText source).variableIds = [] := by
  rw [ofText]
  cases h : ofText? source with
  | error fault => exact .inr rfl
  | ok e => exact .inl (variableIds_of_ofText? h)

end Expr

namespace Formula

/-- The variables that a node stands for itself once its text is read. -/
def readVariableIds : Formula → List String
  | text source => (Expr.ofText source).variableIds
  | f => f.ownVariableIds

mutual

theorem variableIds_complete (f : Formula) :
    f.complete.variableIds = f.preorder.flatMap readVariableIds := by
  cases f with
  | binary op l r =>
    simp only [complete, Expr.variableIds, preorder, List.flatMap_cons, List.flatMap_append,
      variableIds_completeOperand l, variableIds_completeOperand r]
    rfl
  | unary op x =>
    simp only [complete, Expr.variableIds, preorder, List.flatMap_cons,
      variableIds_completeOperand x]
    rfl
  | text source => exact (List.append_nil _).symm
  | _ => rfl

theorem variableIds_completeOperand (x : Option Formula) :
    (completeOperand x).variableIds = (preorderOperand x).flatMap readVariableIds := by
  cases x with
  | none => rfl
  | some f => exact variableIds_complete f

end

theorem readVariableIds_sublist (f : Formula) : f.readVariableIds.Sublist f.ownVariableIds := by
  cases f with
  | text source =>
    rw [readVariableIds, ownVariableIds]
    rcases Expr.variableIds_ofText source with h | h
    · rw [h]
    · rw [h]
      exact List.nil_sublist _
  | _ => exact List.Sublist.refl _

theorem variableIds_complete_sublist (f : Formula) :
    f.complete.variableIds.Sublist f.variableIds := by
  rw [variableIds_complete, variableIds_eq_flatMap]
  exact List.Sublist.flatMap_right _ fun g _ => g.readVariableIds_sublist

theorem variableIds_complete_eq {f : Formula}
    (h : ∀ source, text source ∈ f.preorder → ∃ e, Expr.ofText? source = .ok e) :
    f.complete.variableIds = f.variableIds := by
  rw [variableIds_complete, variableIds_eq_flatMap]
  refine List.flatMap_congr fun g hg => ?_
  cases g with
  | text source =>
    obtain ⟨e, he⟩ := h source hg
    rw [readVariableIds, Expr.ofText, he]
    exact Expr.variableIds_of_ofText? he
  | _ => rfl

theorem variableIds_simplify (f : Formula) : f.simplify.variableIds = f.complete.variableIds := by
  rw [simplify, Expr.variableIds_toFormula, Expr.variableIds_fold]

theorem variableIds_compile (stem : String) (f : Formula) :
    (f.compile stem).variableIds = f.complete.variableIds :=
  f.complete.variableIds_compileFrom stem 0

/-- The program of a formula, the one of the simplified formula, and the simplified formula itself
have the same variables in the same order.  They are among those of the formula, and are all of them
if every text in it can be read; and a search finds just these.  So what a program loads is always
reported. -/
theorem variableIds_agree (stem : String) (f : Formula) :
    (f.compile stem).variableIds = f.simplify.variableIds ∧
      (f.simplify.compile stem).variableIds = f.simplify.variableIds ∧
      f.simplify.variableIds.Sublist f.variableIds ∧
      ((∀ source, text source ∈ f.preorder → ∃ e, Expr.ofText? source = .ok e) →
        f.simplify.variableIds = f.variableIds) ∧
      (∀ id, f.mentions id = true ↔ id ∈ f.variableIds) ∧
      ∀ id, .var id ∈ (f.compile stem).code → f.mentions id = true ∧ id ∈ f.variableIds := by
  have hprogram : (f.compile stem).variableIds = f.simplify.variableIds := by
    rw [variableIds_compile, variableIds_simplify]
  have hsublist : f.simplify.variableIds.Sublist f.variableIds := by
    rw [variableIds_simplify]
    exact variableIds_complete_sublist f
  refine ⟨hprogram, ?_, hsublist, fun h => ?_, fun id => mentions_iff, fun id hid => ?_⟩
  · rw [variableIds_compile, complete_simplify, Expr.variableIds_fold, variableIds_simplify]
  · rw [variableIds_simplify, variableIds_complete_eq h]
  · have hmem : id ∈ (f.compile stem).variableIds := List.mem_filterMap.mpr ⟨.var id, hid, rfl⟩
    have hreported : id ∈ f.variableIds := hsublist.subset (hprogram ▸ hmem)
    exact ⟨mentions_iff.mpr hreported, hreported⟩

theorem variableIds_agree_product :
    (∀ source, text source ∈ (binary .add (some (text "$07$*2")) (some (var "V1"))).preorder →
        ∃ e, Expr.ofText? source = .ok e) ∧
      (binary .add (some (text "$07$*2")) (some (var "V1"))).simplify.variableIds =
        (binary .add (some (text "$07$*2")) (some (var "V1"))).variableIds := by
  have hread : ∀ source,
      text source ∈ (binary .add (some (text "$07$*2")) (some (var "V1"))).preorder →
        ∃ e, Expr.ofText? source = .ok e := by
    intro source hsource
    obtain rfl : source = "$07$*2" := by simpa [preorder, preorderOperand] using hsource
    exact ⟨.binary .mul (.var "7") (.number 2), by cbv⟩
  exact ⟨hread, (variableIds_agree defaultStem _).2.2.2.1 hread⟩

end Formula

end SceneFormula
