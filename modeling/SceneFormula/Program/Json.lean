import SceneFormula.Json.Decode
import SceneFormula.Program.Basic

/-!
# Programs as JSON

A program is written as the pair of its code and its fetches.
-/

namespace SceneFormula

namespace Instruction

def toJson : Instruction → Json Int
  | number n => .object [("type", .string "number"), ("value", .number n.toInt)]
  | var id => .object [("type", .string "variable"), ("value", .string id)]
  | slot name index =>
    .object [("type", .string "local"), ("value", .string name), ("offset", .number index.toNat)]
  | binary op => .object [("type", .string op.tag)]
  | unary op => .object [("type", .string op.tag)]

end Instruction

namespace ActorRecord

def toJson (r : ActorRecord) : Json Int :=
  .object [("type", .string r.kind.tag), ("target", .string r.target)]

end ActorRecord

namespace Fetch

def toJson (f : Fetch) : Json Int :=
  .object [("local", .string f.name), ("value", f.record.toJson)]

end Fetch

namespace Program

def toJson (p : Program) : Json Int :=
  .array [.array (p.code.map Instruction.toJson), .array (p.fetches.map Fetch.toJson)]

end Program

/-! ### Reading fetches -/

namespace RecordKind

def ofJson {ν : Type} (j : Json ν) : Except DecodeFault RecordKind := do
  let tag ← j.text
  match ofTag? tag with
  | some k => .ok k
  | none => .error (.unknownVariant tag (all.map RecordKind.tag))

end RecordKind

namespace ActorRecord

/-- A record is an object, or the array of its kind and its target. -/
def ofJson {ν : Type} : Json ν → Except DecodeFault ActorRecord
  | .object members => do
    let kind ← RecordKind.ofJson (← Json.field "type" members)
    let target ← (← Json.field "target" members).text
    return ⟨kind, target⟩
  | .array [] => .error (.missingField "type")
  | .array (j :: js) => do
    let kind ← RecordKind.ofJson j
    match js with
    | [j] => return ⟨kind, ← j.text⟩
    | _ => .error .invalid
  | _ => .error .invalid

end ActorRecord

namespace Fetch

/-- A fetch is an object, or the array of its local and its record. -/
def ofJson {ν : Type} : Json ν → Except DecodeFault Fetch
  | .object members => do
    let name ← (Json.find? "local" members).mapM Json.text
    let record ← (Json.find? "value" members).mapM ActorRecord.ofJson
    match name, record with
    | some name, some record => return ⟨name, record⟩
    | none, _ => .error (.missingField "local")
    | _, none => .error (.missingField "value")
  | .array (name :: record :: more) => do
    let name ← name.text
    let record ← ActorRecord.ofJson record
    if more.isEmpty then return ⟨name, record⟩ else .error .invalid
  | _ => .error .invalid

/-- A list of fetches. -/
def listOfJson {ν : Type} : Json ν → Except DecodeFault (List Fetch)
  | .array js => js.mapM ofJson
  | _ => .error .invalid

end Fetch

end SceneFormula
