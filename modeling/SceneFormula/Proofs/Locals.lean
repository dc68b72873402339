import SceneFormula.Proofs.Nodes
import SceneFormula.Proofs.Parsing
import SceneFormula.Proofs.Simplification

/-!
# Locals of a program

A program reads each of its locals once, in the order of its fetches: the leaf with running number
`k` makes the fetch with that number and the code that reads it.  Texts spell no property, so they
read no local, and what folding works out has none either.
-/

namespace SceneFormula

/-! ## Property leaves -/

namespace Grammar

/-- A phrase spells no property. -/
theorem Derives.leaves_eq_nil {p : Phrase} {ts : List Token} {e : Expr} {c : Nat}
    (h : Derives p ts e c) : e.leaves = [] := by
  induction h with
  | number | yes | no | reference => rfl
  | parenthesised _ ih | operand _ ih | tighter _ ih => exact ih
  | unaryCall _ _ ih | bang _ ih | tilde _ ih => exact ih
  | minus _ ih => simp only [Expr.leaves, ih, List.append_nil]
  | binaryCall _ _ _ iha ihb => rw [Expr.leaves, iha, ihb, List.append_nil]
  | between _ _ _ _ ihl ihr => rw [Expr.leaves, ihl, ihr, List.append_nil]

end Grammar

theorem Expr.leaves_ofText (source : String) : (Expr.ofText source).leaves = [] := by
  rw [ofText]
  cases h : ofText? source with
  | error fault => rfl
  | ok e =>
    obtain ⟨lexemes, c, -, -, hd⟩ := exists_derives_of_ofText? h
    exact hd.leaves_eq_nil

namespace Formula

def propertyLeaf? : Formula → Option (String × ActorProperty)
  | property target p => some (target, p)
  | _ => none

/-- The property leaves of a formula from left to right, each with the actor it looks at. -/
def leaves (f : Formula) : List (String × ActorProperty) := f.preorder.filterMap propertyLeaf?

mutual

theorem leaves_complete (f : Formula) : f.complete.leaves = f.leaves := by
  cases f with
  | text source => exact Expr.leaves_ofText source
  | binary op l r =>
    rw [complete, Expr.leaves, leaves_completeOperand l, leaves_completeOperand r, leaves,
      preorder, List.filterMap_cons_none rfl, List.filterMap_append]
  | unary op x =>
    rw [complete, Expr.leaves, leaves_completeOperand x, leaves, preorder,
      List.filterMap_cons_none rfl]
  | _ => rfl

theorem leaves_completeOperand (x : Option Formula) :
    (completeOperand x).leaves = (preorderOperand x).filterMap propertyLeaf? := by
  cases x with
  | none => rfl
  | some f => exact leaves_complete f

end

end Formula

/-! ## Code that reads the leaves -/

namespace Instruction

/-- The local that an instruction reads. -/
def localName? : Instruction → Option String
  | slot name _ => some name
  | _ => none

end Instruction

namespace ActorProperty

/-- The code that reads a property, case by case. -/
def reading (name : String) : ActorProperty → List Instruction
  | tileX => [.slot name 1, .number 7, .binary .shiftRight]
  | tileY => [.slot name 2, .number 7, .binary .shiftRight]
  | pixelX => [.slot name 1, .number 4, .binary .shiftRight]
  | pixelY => [.slot name 2, .number 4, .binary .shiftRight]
  | direction => [.slot name 0]
  | frame => [.slot name 0]

theorem code_eq_reading (p : ActorProperty) (name : String) : p.code name = p.reading name := by
  cases p <;> rfl

end ActorProperty

/-- `Interleaved pieces code`: the code is the pieces in their order, with instructions before,
between and behind them that read no local. -/
inductive Interleaved : List (List Instruction) → List Instruction → Prop
  | nil : Interleaved [] []
  | other {i pieces code} (hi : i.localName? = none) (h : Interleaved pieces code) :
      Interleaved pieces (i :: code)
  | piece (p) {pieces code} (h : Interleaved pieces code) :
      Interleaved (p :: pieces) (p ++ code)

namespace Interleaved

variable {pieces morePieces : List (List Instruction)} {code moreCode : List Instruction}

theorem single {i : Instruction} (hi : i.localName? = none) : Interleaved [] [i] :=
  .other hi .nil

theorem append (h : Interleaved pieces code) (hmore : Interleaved morePieces moreCode) :
    Interleaved (pieces ++ morePieces) (code ++ moreCode) := by
  induction h with
  | nil => exact hmore
  | other hi _ ih => exact .other hi ih
  | piece p _ ih =>
    rw [List.append_assoc]
    exact .piece p ih

/-- The locals that the code reads are those that the pieces read. -/
theorem filterMap_localName? (h : Interleaved pieces code) :
    code.filterMap Instruction.localName? =
      pieces.flatMap fun p => p.filterMap Instruction.localName? := by
  induction h with
  | nil => rfl
  | other hi _ ih => rw [List.filterMap_cons_none hi, ih]
  | piece p _ ih => rw [List.filterMap_append, List.flatMap_cons, ih]

end Interleaved

namespace Expr

/-- The code that reads a property leaf, given with its running number. -/
def leafReading (stem : String) (leaf : (String × ActorProperty) × Nat) : List Instruction :=
  leaf.1.2.reading (localName stem leaf.2)

theorem filterMap_leafReading (stem : String) (leaf : (String × ActorProperty) × Nat) :
    (leafReading stem leaf).filterMap Instruction.localName? = [(Fetch.ofLeaf stem leaf).name] := by
  obtain ⟨⟨target, p⟩, k⟩ := leaf
  cases p <;> rfl

/-- Leaves are read in the order of their numbers, and operators and literals read no local. -/
theorem interleaved_compileFrom (stem : String) (e : Expr) (k : Nat) :
    Interleaved ((e.leaves.zipIdx k).map (leafReading stem)) (e.compileFrom stem k).code := by
  induction e generalizing k with
  | number n => exact .single rfl
  | truth b => exact .single rfl
  | var id => exact .single rfl
  | property target p =>
    rw [compileFrom, p.code_eq_reading, ← List.append_nil (p.reading _)]
    exact .piece _ .nil
  | binary op l r ihl ihr =>
    simp only [compileFrom, leaves, List.zipIdx_append, List.map_append,
      l.length_fetches_compileFrom]
    have h := ((ihl k).append (ihr (k + l.leaves.length))).append (.single (i := .binary op) rfl)
    rwa [List.append_nil] at h
  | unary op x ih =>
    have h := (ih k).append (.single (i := .unary op) rfl)
    rwa [List.append_nil] at h

/-- The locals are read in the order of the fetches, each once. -/
theorem localNames_compileFrom (stem : String) (e : Expr) (k : Nat) :
    (e.compileFrom stem k).code.filterMap Instruction.localName? =
      (e.compileFrom stem k).fetches.map Fetch.name := by
  rw [(e.interleaved_compileFrom stem k).filterMap_localName?, List.flatMap_map,
    e.fetches_compileFrom, List.map_map]
  simp only [filterMap_leafReading]
  exact List.map_eq_flatMap.symm

end Expr

namespace Formula

/-- The leaf with running number `k` makes fetch `k`, of the record that its property is in, and
the code that reads this record: its slot, and a shift for a position.  The names of the fetches
are distinct, nothing else in the code reads a local, and simplifying leaves the fetches as they
are. -/
theorem compile_locals (f : Formula) (stem : String) :
    (f.compile stem).fetches = f.leaves.zipIdx.map (Fetch.ofLeaf stem) ∧
      ((f.compile stem).fetches.map Fetch.name).Nodup ∧
      (f.compile stem).code.filterMap Instruction.localName? =
        (f.compile stem).fetches.map Fetch.name ∧
      Interleaved (f.leaves.zipIdx.map (Expr.leafReading stem)) (f.compile stem).code ∧
      (f.simplify.compile stem).fetches = (f.compile stem).fetches := by
  rw [← f.leaves_complete]
  exact ⟨f.complete.fetches_compileFrom stem 0, f.complete.nodup_fetches_compileFrom stem 0,
    f.complete.localNames_compileFrom stem 0, f.complete.interleaved_compileFrom stem 0,
    fetches_compile_simplify stem f⟩

/-- A text contributes nothing, and the pixels of a position are found by a shift. -/
example :
    (binary .add (some (text "1 + $v$")) (some (property "a" .pixelY))).leaves =
        [("a", .pixelY)] ∧
      (binary .add (some (property "b" .frame)) (some (property "a" .pixelY))).compile "t" =
        ⟨[.slot "t0" 0, .slot "t1" 2, .number 4, .binary .shiftRight, .binary .add],
          [⟨"t0", ⟨.frame, "b"⟩⟩, ⟨"t1", ⟨.position, "a"⟩⟩]⟩ := by
  decide

end Formula

end SceneFormula
