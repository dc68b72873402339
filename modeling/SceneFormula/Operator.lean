/-!
# Operators

The operators of scene formulas, with the tags they carry in project files.  All tags are
distinct, also between the two kinds, so a tag names its operator.
-/

namespace SceneFormula

/-- Operators on two operands. -/
inductive BinaryOp where
  | add
  | sub
  | mul
  | div
  | rem
  | gt
  | ge
  | lt
  | le
  | eq
  | ne
  | min
  | max
  | and
  | or
  | shiftLeft
  | shiftRight
  | bitAnd
  | bitOr
  | bitXor
  | angle
  deriving DecidableEq

/-- Operators on one operand. -/
inductive UnaryOp where
  | not
  | abs
  | sqrt
  | complement
  | random
  deriving DecidableEq

namespace BinaryOp

def all : List BinaryOp :=
  [add, sub, mul, div, rem, gt, ge, lt, le, eq, ne, min, max, and, or, shiftLeft, shiftRight,
    bitAnd, bitOr, bitXor, angle]

def tag : BinaryOp → String
  | add => "add"
  | sub => "sub"
  | mul => "mul"
  | div => "div"
  | rem => "mod"
  | gt => "gt"
  | ge => "gte"
  | lt => "lt"
  | le => "lte"
  | eq => "eq"
  | ne => "ne"
  | min => "min"
  | max => "max"
  | and => "and"
  | or => "or"
  | shiftLeft => "shl"
  | shiftRight => "shr"
  | bitAnd => "bAND"
  | bitOr => "bOR"
  | bitXor => "bXOR"
  | angle => "atan2"

def ofTag? (tag : String) : Option BinaryOp :=
  all.find? fun op => op.tag == tag

theorem mem_all (op : BinaryOp) : op ∈ all := by
  cases op <;> decide

@[simp] theorem ofTag?_tag (op : BinaryOp) : ofTag? op.tag = some op := by
  cases op <;> decide

theorem ofTag?_eq_some_iff {s : String} {op : BinaryOp} : ofTag? s = some op ↔ op.tag = s := by
  refine ⟨fun h => ?_, fun h => h ▸ ofTag?_tag op⟩
  simpa using List.find?_some h

theorem tag_injective {a b : BinaryOp} (h : a.tag = b.tag) : a = b := by
  have ha := ofTag?_tag a
  rw [h, ofTag?_tag] at ha
  exact (Option.some.inj ha).symm

end BinaryOp

namespace UnaryOp

def all : List UnaryOp := [not, abs, sqrt, complement, random]

def tag : UnaryOp → String
  | not => "not"
  | abs => "abs"
  | sqrt => "isqrt"
  | complement => "bNOT"
  | random => "rnd"

def ofTag? (tag : String) : Option UnaryOp :=
  all.find? fun op => op.tag == tag

theorem mem_all (op : UnaryOp) : op ∈ all := by
  cases op <;> decide

@[simp] theorem ofTag?_tag (op : UnaryOp) : ofTag? op.tag = some op := by
  cases op <;> decide

theorem ofTag?_eq_some_iff {s : String} {op : UnaryOp} : ofTag? s = some op ↔ op.tag = s := by
  refine ⟨fun h => ?_, fun h => h ▸ ofTag?_tag op⟩
  simpa using List.find?_some h

theorem tag_injective {a b : UnaryOp} (h : a.tag = b.tag) : a = b := by
  have ha := ofTag?_tag a
  rw [h, ofTag?_tag] at ha
  exact (Option.some.inj ha).symm

@[simp] theorem binary_ofTag?_tag (op : UnaryOp) : BinaryOp.ofTag? op.tag = none := by
  cases op <;> decide

end UnaryOp

end SceneFormula
