import SceneFormula.Formula.Json
import SceneFormula.Json.Reading

/-!
# Stored formulas

A text is decoded in the order in which it is written, and the first fault is reported: a fault of a
node that stands before the place where the text breaks off comes first.
-/

namespace SceneFormula

namespace Reading

/-- The fault of a value that stands where one of another kind is due. -/
def mismatch : Reading → DecodeFault
  | broken => .malformed
  | number l => if l.value?.isSome then .invalid else .malformed
  | string none => .malformed
  | _ => .invalid

def text : Reading → Except DecodeFault String
  | string (some s) => .ok s
  | r => .error r.mismatch

end Reading

namespace ActorProperty

/-- The property that a reading names, where `room` arrays and objects may still be opened. -/
def ofReading (room : Nat) : Reading → Except DecodeFault ActorProperty
  | .string (some name) => ofName name
  | .object ((some name, r) :: more) ending =>
    if room = 0 then .error .malformed
    else do
      let p ← ofName name
      match r with
      | .null => if more.isEmpty && ending = .closed then .ok p else .error .malformed
      | r => .error r.mismatch
  | _ => .error .malformed

end ActorProperty

namespace Fields

/-- Puts what was read into a field, given the formula that it is as a node. -/
def setReading (fs : Fields) (room : Nat) (field : Field) (r : Reading)
    (asNode : Unit → Except DecodeFault Formula) : Except DecodeFault Fields :=
  match field, r with
  | .kind, r => return { fs with kind := some (← r.text) }
  | _, .null => .ok fs
  | .value, r =>
    match r.json? room with
    | none => .error .malformed
    | some j => return { fs with value := some (← Payload.ofJson (fun _ => Formula.ofJson j) j) }
  | .left, _ => return { fs with left := some (← asNode ()) }
  | .right, _ => return { fs with right := some (← asNode ()) }
  | .target, r => return { fs with target := some (← r.text) }
  | .property, r => return { fs with property := some (← ActorProperty.ofReading room r) }

end Fields

namespace Formula

mutual

/-- The formula that a reading stores, where `room` arrays and objects may still be opened. -/
def ofReading (room : Nat) : Reading → Except DecodeFault Formula
  | .object members ending =>
    match room with
    | 0 => .error .malformed
    | room + 1 => do
      let fs ← fieldsOfKeyed room members [] {}
      if ending = .closed then fs.formula else .error .malformed
  | .array items ending =>
    match room with
    | 0 => .error .malformed
    | room + 1 => do
      let fs ← fieldsOfListed room items Field.all {}
      if ending ≠ .closed then .error .malformed
      else if items.isEmpty then .error .invalid
      else fs.formula
  | r => .error r.mismatch

def fieldsOfKeyed (room : Nat) : List (Option String × Reading) → List Field → Fields →
    Except DecodeFault Fields
  | [], _, fs => .ok fs
  | (none, _) :: _, _, _ => .error .malformed
  | (some key, r) :: ms, seen, fs =>
    match Field.ofKey? key with
    | none => fieldsOfKeyed room ms seen fs
    | some field =>
      if field ∈ seen then .error (.duplicateField key)
      else do
        let fs ← fs.setReading room field r fun _ => ofReading room r
        fieldsOfKeyed room ms (field :: seen) fs

def fieldsOfListed (room : Nat) : List Reading → List Field → Fields → Except DecodeFault Fields
  | [], _, fs => .ok fs
  | _ :: _, [], _ => .error .malformed
  | r :: rs, field :: unread, fs => do
    let fs ← fs.setReading room field r fun _ => ofReading room r
    fieldsOfListed room rs unread fs

end

/-- The greatest number of arrays and objects that may be open at once in a stored text. -/
def maxOpen : Nat := 127

/-- The formula that a JSON text stores. -/
def ofStored (text : String) : Except DecodeFault Formula := do
  let (r, after) := Reading.read text.toList
  let f ← ofReading maxOpen r
  if Reading.isLast after then .ok f else .error .malformed

end Formula

end SceneFormula
