import SceneFormula.Proofs.Compilation

/-!
# Unique readability of programs

Code in postfix order can be read in one way only: a reader that keeps trees on its stack, where the
machine keeps words, makes one tree of the code of an expression.  A property is spread over code
and fetches, and its code may look like an operator on two operands; but the slot that it reads
tells it apart.  So a program gives its formula away up to what completion makes equal.
-/

namespace SceneFormula

/-- What a piece of code computes, as a tree whose leaves are the instructions that push. -/
inductive CodeTree where
  | push (i : Instruction)
  | unary (op : UnaryOp) (x : CodeTree)
  | binary (op : BinaryOp) (l r : CodeTree)

namespace CodeTree

/-- The trees on the stack after a piece of code, if it never lacks an operand. -/
def read : List CodeTree → List Instruction → Option (List CodeTree)
  | stack, [] => some stack
  | r :: l :: stack, .binary op :: code => read (binary op l r :: stack) code
  | x :: stack, .unary op :: code => read (unary op x :: stack) code
  | _, .binary _ :: _ => none
  | _, .unary _ :: _ => none
  | stack, i :: code => read (push i :: stack) code

def slots : CodeTree → Nat
  | push (.slot _ _) => 1
  | push _ => 0
  | unary _ x => x.slots
  | binary _ l r => l.slots + r.slots

end CodeTree

namespace ActorProperty

/-- The tree of the code that reads the property from the local `name`. -/
def codeTree (p : ActorProperty) (name : String) : CodeTree :=
  match p.shift? with
  | none => .push (.slot name p.slot)
  | some bits => .binary .shiftRight (.push (.slot name p.slot)) (.push (.number bits))

theorem read_code (p : ActorProperty) (name : String) (stack : List CodeTree)
    (more : List Instruction) :
    CodeTree.read stack (p.code name ++ more) = CodeTree.read (p.codeTree name :: stack) more := by
  cases p <;> rfl

theorem slots_codeTree (p : ActorProperty) (name : String) : (p.codeTree name).slots = 1 := by
  cases p <;> rfl

theorem codeTree_ne_unary (p : ActorProperty) (name : String) (op : UnaryOp) (x : CodeTree) :
    p.codeTree name ≠ .unary op x := by
  intro h
  cases p <;> cases h

theorem eq_of_codeTree_eq {p q : ActorProperty} {name : String}
    (hkind : p.recordKind = q.recordKind) (htree : p.codeTree name = q.codeTree name) : p = q := by
  -- The properties of one record are told apart by the slot and the shift.
  cases p <;> cases q <;> simp [recordKind, codeTree, shift?, slot] at hkind htree <;> rfl

end ActorProperty

namespace Expr

def codeTree (stem : String) : Nat → Expr → CodeTree
  | _, number n => .push (.number n)
  | _, truth b => .push (.number b.toInt64)
  | _, var id => .push (.var id)
  | k, property _ p => p.codeTree (localName stem k)
  | k, binary op l r => .binary op (l.codeTree stem k) (r.codeTree stem (k + l.leaves.length))
  | k, unary op x => .unary op (x.codeTree stem k)

theorem read_compileFrom (stem : String) (e : Expr) (k : Nat) (stack : List CodeTree)
    (more : List Instruction) :
    CodeTree.read stack ((e.compileFrom stem k).code ++ more) =
      CodeTree.read (e.codeTree stem k :: stack) more := by
  induction e generalizing k stack more with
  | property target p => exact p.read_code _ stack more
  | binary op l r ihl ihr =>
    simp only [compileFrom, List.append_assoc, ihl, ihr, length_fetches_compileFrom]
    rfl
  | unary op x ih =>
    simp only [compileFrom, List.append_assoc, ih]
    rfl
  | _ => rfl

theorem slots_codeTree (stem : String) (e : Expr) (k : Nat) :
    (e.codeTree stem k).slots = e.leaves.length := by
  induction e generalizing k with
  | property target p => exact p.slots_codeTree _
  | binary op l r ihl ihr => rw [codeTree, CodeTree.slots, ihl, ihr, leaves, List.length_append]
  | unary op x ih => exact ih k
  | _ => rfl

theorem index_eq_zero_of_codeTree_eq {stem name : String} {index : UInt8} {e : Expr} {k : Nat}
    (h : e.codeTree stem k = .push (.slot name index)) : index = 0 := by
  cases e with
  | property target p =>
    -- What is read of a position is shifted.
    cases p <;> simp_all [codeTree, ActorProperty.codeTree, ActorProperty.shift?,
      ActorProperty.slot]
  | _ => cases h

theorem codeTree_property_ne_binary {stem name : String} {p : ActorProperty} {op : BinaryOp}
    {l r : Expr} {j k : Nat} :
    p.codeTree name ≠ .binary op (l.codeTree stem j) (r.codeTree stem k) := by
  intro h
  -- Where the code looks like a shift, its first operand would be a slot that nothing compiles to.
  have hindex (index : UInt8) (hl : .push (.slot name index) = l.codeTree stem j) : index = 0 :=
    index_eq_zero_of_codeTree_eq hl.symm
  cases p with
  | direction | frame => cases h
  | tileX | tileY | pixelX | pixelY =>
    have hslot := hindex _ (CodeTree.binary.inj h).2.1
    cases hslot

/-- The expression with its truth values as numbers. -/
def canonical : Expr → Expr
  | truth b => number (if b then 1 else 0)
  | binary op l r => binary op l.canonical r.canonical
  | unary op x => unary op x.canonical
  | e => e

theorem canonical_of_codeTree_eq_number {stem : String} {e : Expr} {k : Nat} {n : Int64}
    (h : e.codeTree stem k = .push (.number n)) : e.canonical = .number n := by
  cases e with
  | number m =>
    cases h
    rfl
  | truth b =>
    cases h
    cases b <;> rfl
  | property target p => cases p <;> cases h
  | _ => cases h

theorem length_leaves_of_codeTree_eq {stem : String} {d e : Expr} {j k : Nat}
    (h : d.codeTree stem j = e.codeTree stem k) : d.leaves.length = e.leaves.length := by
  rw [← slots_codeTree stem d j, h, slots_codeTree]

/-- The tree of an expression and its records determine the expression up to truth values. -/
theorem canonical_eq_of_codeTree_eq {stem : String} {d e : Expr} {k : Nat}
    (htree : d.codeTree stem k = e.codeTree stem k)
    (hfetches : (d.compileFrom stem k).fetches = (e.compileFrom stem k).fetches) :
    d.canonical = e.canonical := by
  induction d generalizing e k with
  | number n => exact (canonical_of_codeTree_eq_number htree.symm).symm
  | truth b =>
    rw [canonical_of_codeTree_eq_number htree.symm]
    cases b <;> rfl
  | var id =>
    cases e with
    | var id' =>
      cases htree
      rfl
    | property target q => cases hfetches
    | _ => cases htree
  | property target p =>
    cases e with
    | property target' q =>
      have hrecord := congrArg Fetch.record (List.head_eq_of_cons_eq hfetches)
      obtain ⟨hkind, rfl⟩ := ActorRecord.mk.inj hrecord
      rw [ActorProperty.eq_of_codeTree_eq hkind htree]
    | binary op l r => exact absurd htree codeTree_property_ne_binary
    | unary op x => exact absurd htree (p.codeTree_ne_unary _ op _)
    | _ => cases hfetches
  | binary op l r ihl ihr =>
    cases e with
    | binary op' l' r' =>
      obtain ⟨rfl, hl, hr⟩ := CodeTree.binary.inj htree
      have hlength := length_leaves_of_codeTree_eq hl
      simp only [compileFrom, length_fetches_compileFrom] at hfetches
      rw [← hlength] at hr hfetches
      -- The operands on the left have equally many records, so each takes its own part of them.
      have hsplit : (l.compileFrom stem k).fetches.length =
          (l'.compileFrom stem k).fetches.length := by
        rw [length_fetches_compileFrom, length_fetches_compileFrom, hlength]
      obtain ⟨hleft, hright⟩ := List.append_inj hfetches hsplit
      rw [canonical, canonical, ihl hl hleft, ihr hr hright]
    | property target q => exact absurd htree.symm codeTree_property_ne_binary
    | _ => cases htree
  | unary op x ih =>
    cases e with
    | unary op' y =>
      obtain ⟨rfl, hx⟩ := CodeTree.unary.inj htree
      rw [canonical, canonical, ih hx hfetches]
    | property target q => exact absurd htree.symm (q.codeTree_ne_unary _ op _)
    | _ => cases htree

theorem codeTree_eq_of_code_eq {stem : String} {d e : Expr} {k : Nat}
    (h : (d.compileFrom stem k).code = (e.compileFrom stem k).code) :
    d.codeTree stem k = e.codeTree stem k := by
  have hd := d.read_compileFrom stem k [] []
  rw [h, e.read_compileFrom stem k [] []] at hd
  exact (List.head_eq_of_cons_eq (Option.some.inj hd)).symm

theorem compileFrom_canonical (stem : String) (e : Expr) (k : Nat) :
    e.canonical.compileFrom stem k = e.compileFrom stem k := by
  induction e generalizing k with
  | truth b => cases b <;> rfl
  | binary op l r ihl ihr => simp only [canonical, compileFrom, ihl, ihr]
  | unary op x ih => simp only [canonical, compileFrom, ih]
  | _ => rfl

theorem compileFrom_eq_iff {stem : String} {d e : Expr} {k : Nat} :
    d.compileFrom stem k = e.compileFrom stem k ↔ d.canonical = e.canonical := by
  constructor
  · intro h
    have htree := codeTree_eq_of_code_eq (congrArg Program.code h)
    exact canonical_eq_of_codeTree_eq htree (congrArg Program.fetches h)
  · intro h
    rw [← compileFrom_canonical stem d, h, compileFrom_canonical]

end Expr

namespace Formula

mutual

/-- The formula with truth values as numbers, zeros for absent operands, and for every text the
canonical form of what it spells. -/
def canonical : Formula → Formula
  | truth b => number (if b then 1 else 0)
  | text source => (Expr.ofText source).canonical.toFormula
  | binary op l r => binary op (some (canonicalOperand l)) (some (canonicalOperand r))
  | unary op x => unary op (some (canonicalOperand x))
  | f => f

def canonicalOperand : Option Formula → Formula
  | none => number 0
  | some f => f.canonical

end

mutual

theorem toFormula_canonical_complete (f : Formula) :
    f.complete.canonical.toFormula = f.canonical := by
  cases f with
  | binary op l r =>
    simp only [complete, Expr.canonical, Expr.toFormula, canonical,
      toFormula_canonical_completeOperand l, toFormula_canonical_completeOperand r]
  | unary op x =>
    simp only [complete, Expr.canonical, Expr.toFormula, canonical,
      toFormula_canonical_completeOperand x]
  | _ => rfl

theorem toFormula_canonical_completeOperand (x : Option Formula) :
    (completeOperand x).canonical.toFormula = canonicalOperand x := by
  cases x with
  | none => rfl
  | some f => exact toFormula_canonical_complete f

end

theorem canonical_toFormula (e : Expr) : e.toFormula.canonical = e.canonical.toFormula := by
  rw [← toFormula_canonical_complete, Expr.complete_toFormula]

/-- Formulas have one program just if they have one canonical form, and so does a text and the tree
that it spells. -/
theorem compile_eq_compile_iff (stem : String) :
    (∀ f g : Formula, f.compile stem = g.compile stem ↔ f.canonical = g.canonical) ∧
      ∀ source, (text source).canonical = (Expr.ofText source).toFormula.canonical := by
  refine ⟨fun f g => ?_, fun source => ?_⟩
  · rw [compile, compile, Expr.compileFrom_eq_iff, ← toFormula_canonical_complete,
      ← toFormula_canonical_complete]
    exact ⟨congrArg Expr.toFormula, Expr.toFormula_injective⟩
  · rw [canonical_toFormula, canonical]

end Formula

end SceneFormula
