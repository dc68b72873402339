import SceneFormula.Operator

/-!
# Formulas

A formula is what a scene editor stores for a condition, an assignment or an argument: a tree over
integers, game variables and live properties of actors.  Operands may be absent while a formula is
being edited, and a leaf may hold an expression that is still in text form.
-/

namespace SceneFormula

/-- The live properties of an actor: its position in tiles or in pixels, the way it faces, and the
frame of its animation. -/
inductive ActorProperty where
  | tileX
  | tileY
  | pixelX
  | pixelY
  | direction
  | frame
  deriving DecidableEq

namespace ActorProperty

def all : List ActorProperty := [tileX, tileY, pixelX, pixelY, direction, frame]

def name : ActorProperty → String
  | tileX => "xpos"
  | tileY => "ypos"
  | pixelX => "pxpos"
  | pixelY => "pypos"
  | direction => "direction"
  | frame => "frame"

def ofName? (name : String) : Option ActorProperty :=
  all.find? fun p => p.name == name

@[simp] theorem ofName?_name (p : ActorProperty) : ofName? p.name = some p := by
  cases p <;> decide

theorem ofName?_eq_some_iff {s : String} {p : ActorProperty} :
    ofName? s = some p ↔ p.name = s := by
  refine ⟨fun h => ?_, fun h => h ▸ ofName?_name p⟩
  simpa using List.find?_some h

end ActorProperty

inductive Formula where
  | number (n : Int64)
  /-- A game variable: global (`0`, `V0`), local (`L0`) or temporary (`T0`). -/
  | var (id : String)
  | property (target : String) (property : ActorProperty)
  /-- An expression in text form. -/
  | text (source : String)
  | truth (value : Bool)
  | binary (op : BinaryOp) (left right : Option Formula)
  | unary (op : UnaryOp) (operand : Option Formula)

namespace Formula

def tag : Formula → String
  | number _ => "number"
  | var _ => "variable"
  | property _ _ => "property"
  | text _ => "expression"
  | truth true => "true"
  | truth false => "false"
  | binary op _ _ => op.tag
  | unary op _ => op.tag

/-- The constant a literal stands for; the truth values count as 1 and 0. -/
def constant? : Formula → Option Int64
  | number n => some n
  | truth b => some b.toInt64
  | _ => none

/-- The operands that are present, left to right. -/
def operands : Formula → List Formula
  | binary _ l r => l.toList ++ r.toList
  | unary _ x => x.toList
  | _ => []

def add (a b : Formula) : Formula := binary .add (some a) (some b)

def addConstant (a : Formula) (n : Int64) : Formula := a.add (number n)

def mulConstant (a : Formula) (n : Int64) : Formula := binary .mul (some a) (some (number n))

mutual

/-- The number of nodes. -/
def size : Formula → Nat
  | binary _ l r => sizeOperand l + sizeOperand r + 1
  | unary _ x => sizeOperand x + 1
  | _ => 1

def sizeOperand : Option Formula → Nat
  | none => 0
  | some f => f.size

end

/-! ### Equality -/

mutual

def same : Formula → Formula → Bool
  | number m, number n => m == n
  | var x, var y => x == y
  | property t p, property u q => t == u && p == q
  | text s, text t => s == t
  | truth a, truth b => a == b
  | binary op l r, binary op' l' r' => op == op' && sameOperand l l' && sameOperand r r'
  | unary op x, unary op' y => op == op' && sameOperand x y
  | _, _ => false

def sameOperand : Option Formula → Option Formula → Bool
  | none, none => true
  | some f, some g => f.same g
  | _, _ => false

end

mutual

theorem same_iff (f g : Formula) : f.same g = true ↔ f = g := by
  cases f with
  | binary op l r =>
    cases g <;> simp [same, sameOperand_iff l, sameOperand_iff r, and_assoc]
  | unary op x =>
    cases g <;> simp [same, sameOperand_iff x]
  | _ => cases g <;> simp [same]

theorem sameOperand_iff (x y : Option Formula) : sameOperand x y = true ↔ x = y := by
  cases x with
  | none => cases y <;> simp [sameOperand]
  | some f => cases y <;> simp [sameOperand, same_iff f]

end

instance : DecidableEq Formula := fun f g => decidable_of_iff _ (same_iff f g)

end Formula

end SceneFormula
