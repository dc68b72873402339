import SceneFormula.Formula.Fields

/-!
# Formulas as JSON

A node is written as an object without the fields it does not use.  When it is read, it may also be
an array of the fields from the first on; unknown members of an object do not count.
-/

namespace SceneFormula

namespace Formula

mutual

def toJson : Formula → Json Int
  | number n => .object [("type", .string "number"), ("value", .number n.toInt)]
  | var id => .object [("type", .string "variable"), ("value", .string id)]
  | property target p =>
    .object [("type", .string "property"), ("target", .string target),
      ("property", .string p.name)]
  | text source => .object [("type", .string "expression"), ("value", .string source)]
  | truth true => .object [("type", .string "true")]
  | truth false => .object [("type", .string "false")]
  | binary op l r =>
    .object (("type", .string op.tag) :: (operandMember "valueA" l ++ operandMember "valueB" r))
  | unary op x => .object (("type", .string op.tag) :: operandMember "value" x)

def operandMember (key : String) : Option Formula → List (String × Json Int)
  | none => []
  | some f => [(key, f.toJson)]

end

end Formula

namespace ActorProperty

def ofName (name : String) : Except DecodeFault ActorProperty :=
  match ofName? name with
  | some p => .ok p
  | none => .error (.unknownVariant name (all.map ActorProperty.name))

/-- A property is given by its name, or by an object with the name as its only key and no value. -/
def ofJson : Json JsonNumber → Except DecodeFault ActorProperty
  | .string name => ofName name
  | .object [(name, j)] =>
    match ofName name, j with
    | .ok p, .null => .ok p
    | .ok _, _ => .error .invalid
    | .error e, _ => .error e
  | _ => .error .invalid

end ActorProperty

/-- The value field of a node, given the formula that it is as a node. -/
def Payload.ofJson (asNode : Unit → Except DecodeFault Formula) :
    Json JsonNumber → Except DecodeFault Payload
  | .number x => .ok (.number x)
  | .string s => .ok (.string s)
  | _ =>
    match asNode () with
    | .ok f => .ok (.node f)
    | .error _ => .error .noMatch

namespace Fields

/-- Puts the value `j` into a field, given the formula that it is as a node. -/
def setJson (fs : Fields) (field : Field) (j : Json JsonNumber)
    (asNode : Unit → Except DecodeFault Formula) : Except DecodeFault Fields :=
  match field, j with
  | .kind, .string tag => .ok { fs with kind := some tag }
  | .kind, _ => .error .invalid
  | _, .null => .ok fs
  | .value, j => return { fs with value := some (← Payload.ofJson asNode j) }
  | .left, _ => return { fs with left := some (← asNode ()) }
  | .right, _ => return { fs with right := some (← asNode ()) }
  | .target, .string target => .ok { fs with target := some target }
  | .target, _ => .error .invalid
  | .property, j => return { fs with property := some (← ActorProperty.ofJson j) }

end Fields

namespace Formula

mutual

/-- The formula that a JSON value stores. -/
def ofJson : Json JsonNumber → Except DecodeFault Formula
  | .object members => do (← fieldsOfMembers members [] {}).formula
  | .array [] => .error .invalid
  | .array (j :: js) => do (← fieldsOfItems (j :: js) Field.all {}).formula
  | _ => .error .invalid

/-- Reads the members of a node; `seen` lists the fields that have been read before. -/
def fieldsOfMembers : List (String × Json JsonNumber) → List Field → Fields →
    Except DecodeFault Fields
  | [], _, fs => .ok fs
  | (key, j) :: ms, seen, fs =>
    match Field.ofKey? key with
    | none => fieldsOfMembers ms seen fs
    | some field =>
      if field ∈ seen then .error (.duplicateField key)
      else do
        let fs ← fs.setJson field j fun _ => ofJson j
        fieldsOfMembers ms (field :: seen) fs

/-- Reads the items of a node in array form into the fields not yet read. -/
def fieldsOfItems : List (Json JsonNumber) → List Field → Fields → Except DecodeFault Fields
  | [], _, fs => .ok fs
  | _ :: _, [], _ => .error .invalid
  | j :: js, field :: unread, fs => do
    let fs ← fs.setJson field j fun _ => ofJson j
    fieldsOfItems js unread fs

end

/-- Whether a JSON value stores a formula. -/
def isStored (j : Json JsonNumber) : Bool := (ofJson j).toOption.isSome

end Formula

end SceneFormula
