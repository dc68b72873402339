import SceneFormula.Formula.Basic

/-!
# Walks

A walk visits a formula in preorder: a node before its operands and the left operand before the
right one.  It keeps the subtrees that are still to be visited, so a search can stop early.
-/

namespace SceneFormula

namespace Formula

mutual

/-- The nodes of a formula in preorder. -/
def preorder : Formula → List Formula
  | f@(binary _ l r) => f :: (preorderOperand l ++ preorderOperand r)
  | f@(unary _ x) => f :: preorderOperand x
  | f => [f]

def preorderOperand : Option Formula → List Formula
  | none => []
  | some f => f.preorder

end

end Formula

/-- The subtrees that a walk has still to visit, the next one first. -/
structure Walk where
  pending : List Formula

namespace Walk

/-- The number of nodes still to be visited. -/
def size (w : Walk) : Nat := w.pending.foldr (fun f n => f.size + n) 0

def next? (w : Walk) : Option (Formula × Walk) :=
  match w.pending with
  | [] => none
  | f :: fs => some (f, ⟨f.operands ++ fs⟩)

theorem size_next {w w' : Walk} {f : Formula} (h : w.next? = some (f, w')) :
    w'.size < w.size := by
  obtain ⟨pending⟩ := w
  cases pending with
  | nil => simp [next?] at h
  | cons g gs =>
    simp only [next?, Option.some.injEq, Prod.mk.injEq] at h
    obtain ⟨rfl, rfl⟩ := h
    cases g with
    | binary op l r =>
      cases l <;> cases r <;>
        simp +arith [size, Formula.operands, Formula.size, Formula.sizeOperand]
    | unary op x => cases x <;> simp [size, Formula.operands, Formula.size, Formula.sizeOperand]
    | _ => simp [size, Formula.operands, Formula.size]

def toList (w : Walk) : List Formula :=
  match h : w.next? with
  | none => []
  | some (f, rest) =>
    have := size_next h
    f :: rest.toList
termination_by w.size

/-- Whether `p` answers true on some node.  No node after the first such one is asked. -/
def anyM {m : Type → Type} [Monad m] (p : Formula → m Bool) (w : Walk) : m Bool :=
  match h : w.next? with
  | none => pure false
  | some (f, rest) =>
    have := size_next h
    do if ← p f then pure true else rest.anyM p
termination_by w.size

def any (p : Formula → Bool) (w : Walk) : Bool := Id.run (w.anyM fun f => pure (p f))

end Walk

namespace Formula

def walk (f : Formula) : Walk := ⟨[f]⟩

end Formula

end SceneFormula
