import SceneFormula.Formula.Complete
import SceneFormula.Program.Basic

/-!
# Compilation

Code comes in postfix order: the left operand, the right operand, the operator.  Every property
leaf fetches its own record, into a local named by a stem and a running number.
-/

namespace SceneFormula

namespace ActorProperty

def recordKind : ActorProperty → RecordKind
  | tileX | tileY | pixelX | pixelY => .position
  | direction => .direction
  | frame => .frame

/-- The slot of the record in which the property is found. -/
def slot : ActorProperty → UInt8
  | tileX | pixelX => 1
  | tileY | pixelY => 2
  | direction | frame => 0

/-- By how many bits a position has to be shifted right to count tiles or pixels. -/
def shift? : ActorProperty → Option Int64
  | tileX | tileY => some 7
  | pixelX | pixelY => some 4
  | direction | frame => none

/-- The code that reads the property from the local `name`. -/
def code (p : ActorProperty) (name : String) : List Instruction :=
  .slot name p.slot :: match p.shift? with
    | none => []
    | some bits => [.number bits, .binary .shiftRight]

end ActorProperty

/-- The local with running number `k`. -/
def localName (stem : String) (k : Nat) : String := stem ++ toString k

namespace Expr

/-- The program of an expression whose first record has running number `k`. -/
def compileFrom (stem : String) (k : Nat) : Expr → Program
  | number n => ⟨[.number n], []⟩
  | truth b => ⟨[.number b.toInt64], []⟩
  | var id => ⟨[.var id], []⟩
  | property target p =>
    ⟨p.code (localName stem k), [⟨localName stem k, ⟨p.recordKind, target⟩⟩]⟩
  | binary op l r =>
    let left := l.compileFrom stem k
    let right := r.compileFrom stem (k + left.fetches.length)
    ⟨left.code ++ right.code ++ [.binary op], left.fetches ++ right.fetches⟩
  | unary op x =>
    let operand := x.compileFrom stem k
    ⟨operand.code ++ [.unary op], operand.fetches⟩

end Expr

namespace Formula

def defaultStem : String := "local_"

/-- The program of a formula. -/
def compile (f : Formula) (stem : String) : Program := f.complete.compileFrom stem 0

end Formula

end SceneFormula
