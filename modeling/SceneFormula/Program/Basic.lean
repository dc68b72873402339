import SceneFormula.Operator

/-!
# Programs

A program first fetches records of actors into named locals, and then runs its code on a stack of
words.
-/

namespace SceneFormula

/-- What can be read of an actor: its position (slot 1 holds the horizontal part and slot 2 the
vertical one, in fractions of a pixel), the way it faces and its animation frame (both in
slot 0). -/
inductive RecordKind where
  | position
  | direction
  | frame
  deriving DecidableEq

namespace RecordKind

def all : List RecordKind := [position, direction, frame]

def tag : RecordKind → String
  | position => "actorPosition"
  | direction => "actorDirection"
  | frame => "actorFrame"

def ofTag? (tag : String) : Option RecordKind :=
  all.find? fun k => k.tag == tag

@[simp] theorem ofTag?_tag (k : RecordKind) : ofTag? k.tag = some k := by
  cases k <;> decide

end RecordKind

/-- A record of the actor `target`. -/
structure ActorRecord where
  kind : RecordKind
  target : String
  deriving DecidableEq

/-- Reads a record into the local `name`. -/
structure Fetch where
  name : String
  record : ActorRecord
  deriving DecidableEq

inductive Instruction where
  /-- Pushes a constant. -/
  | number (n : Int64)
  /-- Pushes the value of a variable. -/
  | var (id : String)
  /-- Pushes a slot of a fetched record. -/
  | slot (name : String) (index : UInt8)
  /-- Replaces the two topmost values; the right operand is on top. -/
  | binary (op : BinaryOp)
  /-- Replaces the topmost value. -/
  | unary (op : UnaryOp)
  deriving DecidableEq

structure Program where
  code : List Instruction
  fetches : List Fetch
  deriving DecidableEq

end SceneFormula
