import SceneFormula.Formula.Basic
import SceneFormula.Json.Decode
import SceneFormula.Json.Numeral

/-!
# Fields of a stored formula

A formula is stored as a node with six fields, of which only the kind is always there.  Every known
field of a node has to be well formed, also one that its kind does not use.
-/

namespace SceneFormula

/-- Why the fields of a node make no formula. -/
inductive NodeFault where
  | operandNotNode (tag : String)
  | numberNotInteger
  | variableNotString
  | textNotString
  | propertyIncomplete
  | unknownKind (tag : String)
  deriving DecidableEq

namespace NodeFault

def detail : NodeFault → String
  | operandNotNode tag => "'" ++ tag ++ "' operand must be a script value"
  | numberNotInteger => "'number' value must be an integer"
  | variableNotString => "'variable' value must be a string"
  | textNotString => "'expression' value must be a string"
  | propertyIncomplete => "'property' requires 'target' and 'property'"
  | unknownKind tag => "unknown script value type '" ++ tag ++ "'"

def toError (f : NodeFault) : Error := ⟨.validation, f.detail⟩

end NodeFault

/-- The known fields of a node. -/
inductive Field where
  | kind
  | value
  | left
  | right
  | target
  | property
  deriving DecidableEq

namespace Field

/-- The fields in the order in which a node in array form lists them. -/
def all : List Field := [kind, value, left, right, target, property]

def key : Field → String
  | kind => "type"
  | value => "value"
  | left => "valueA"
  | right => "valueB"
  | target => "target"
  | property => "property"

def ofKey? (key : String) : Option Field := all.find? fun f => f.key == key

@[simp] theorem ofKey?_key (f : Field) : ofKey? f.key = some f := by
  cases f <;> decide

theorem ofKey?_eq_some_iff {s : String} {f : Field} : ofKey? s = some f ↔ f.key = s := by
  refine ⟨fun h => ?_, fun h => h ▸ ofKey?_key f⟩
  simpa using List.find?_some h

end Field

/-- What the value field of a node holds. -/
inductive Payload where
  | number (x : JsonNumber)
  | string (s : String)
  | node (f : Formula)

/-- The fields of a node that have been read so far. -/
structure Fields where
  kind : Option String := none
  value : Option Payload := none
  left : Option Formula := none
  right : Option Formula := none
  target : Option String := none
  property : Option ActorProperty := none

namespace Fields

/-- The formula that the fields of a node of kind `tag` make. -/
def build (fs : Fields) (tag : String) : Except NodeFault Formula :=
  match BinaryOp.ofTag? tag, UnaryOp.ofTag? tag with
  | some op, _ => .ok (.binary op fs.left fs.right)
  | none, some op =>
    match fs.value with
    | none => .ok (.unary op none)
    | some (.node f) => .ok (.unary op (some f))
    | some _ => .error (.operandNotNode tag)
  | none, none =>
    match tag with
    | "number" =>
      match fs.value with
      | some (.number x) =>
        match x.toInt64? with
        | some n => .ok (.number n)
        | none => .error .numberNotInteger
      | _ => .error .numberNotInteger
    | "variable" =>
      match fs.value with
      | some (.string id) => .ok (.var id)
      | _ => .error .variableNotString
    | "expression" =>
      match fs.value with
      | some (.string source) => .ok (.text source)
      | none => .ok (.text "")
      | _ => .error .textNotString
    | "property" =>
      match fs.target, fs.property with
      | some target, some p => .ok (.property target p)
      | _, _ => .error .propertyIncomplete
    | "true" => .ok (.truth true)
    | "false" => .ok (.truth false)
    | _ => .error (.unknownKind tag)

/-- The formula that the fields of a node make. -/
def formula (fs : Fields) : Except DecodeFault Formula :=
  match fs.kind with
  | none => .error (.missingField Field.kind.key)
  | some tag => (fs.build tag).mapError fun fault => .rejected fault.toError

end Fields

end SceneFormula
