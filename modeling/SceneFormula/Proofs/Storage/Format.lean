import SceneFormula.Formula.Json

/-!
# The format of stored formulas

Which JSON values store a formula, and which formula it is, said without the decoder.  A node has
six known fields.  What stands in a field has to be well formed in itself, whatever the kind of the
node; the formula is then made of the fields that its kind uses.
-/

namespace SceneFormula

/-- What a known field holds. -/
abbrev Field.Content : Field → Type
  | kind | target => String
  | value => Payload
  | left | right => Formula
  | property => ActorProperty

/-- What the fields of a node hold, as far as they hold something. -/
abbrev Contents := (field : Field) → Option field.Content

namespace Format

/-- `Node j slots`: the value `j` has the shape of a node, with `slots field` in each known field.
It is an object in which no known key stands twice, or an array of up to six items. -/
inductive Node : Json JsonNumber → (Field → Option (Json JsonNumber)) → Prop
  | object {ms : List (String × Json JsonNumber)}
      (h : ∀ field : Field, (ms.map Prod.fst).count field.key ≤ 1) :
      Node (.object ms) fun field => Json.find? field.key ms
  | array {js : List (Json JsonNumber)} (hne : js ≠ []) (hle : js.length ≤ 6) :
      Node (.array js) fun field =>
        js[[Field.kind, .value, .left, .right, .target, .property].idxOf field]?

/-- `Holds P field slot c`: what stands in a field is well formed and holds `c`, where `P` says
which values store which formulas.  Every field but the kind may be absent or null. -/
inductive Holds (P : Json JsonNumber → Formula → Prop) :
    (field : Field) → Option (Json JsonNumber) → Option field.Content → Prop
  | absent {field : Field} : Holds P field none none
  | null {field : Field} (h : field ≠ .kind) : Holds P field (some .null) none
  | kind (tag : String) : Holds P .kind (some (.string tag)) (some tag)
  | number (x : JsonNumber) : Holds P .value (some (.number x)) (some (.number x))
  | string (s : String) : Holds P .value (some (.string s)) (some (.string s))
  | operand {j : Json JsonNumber} {f : Formula} (h : P j f) :
      Holds P .value (some j) (some (.node f))
  | left {j : Json JsonNumber} {f : Formula} (h : P j f) : Holds P .left (some j) (some f)
  | right {j : Json JsonNumber} {f : Formula} (h : P j f) : Holds P .right (some j) (some f)
  | target (target : String) : Holds P .target (some (.string target)) (some target)
  | property (p : ActorProperty) : Holds P .property (some (.string p.name)) (some p)
  | propertyObject (p : ActorProperty) :
      Holds P .property (some (.object [(p.name, .null)])) (some p)

/-- `Makes c f`: the contents `c` of a node make the formula `f`. -/
inductive Makes (c : Contents) : Formula → Prop
  | binary {op : BinaryOp} (h : c .kind = some op.tag) :
      Makes c (.binary op (c .left) (c .right))
  | unary {op : UnaryOp} {x : Option Formula} (h : c .kind = some op.tag)
      (hx : c .value = x.map Payload.node) : Makes c (.unary op x)
  /-- A whole number out of range counts as the nearest word. -/
  | integer {k : Int} (h : c .kind = some "number")
      (hk : c .value = some (.number (.integer k))) : Makes c (.number (Int64.ofIntClamp k))
  | decimal {x : Float} (h : c .kind = some "number")
      (hx : c .value = some (.number (.decimal x))) (hfinite : x.isFinite)
      (hwhole : x.floor == x) : Makes c (.number x.toInt64)
  | var {id : String} (h : c .kind = some "variable") (hid : c .value = some (.string id)) :
      Makes c (.var id)
  | text {source : String} (h : c .kind = some "expression")
      (hsource : c .value = some (.string source)) : Makes c (.text source)
  | emptyText (h : c .kind = some "expression") (hnone : c .value = none) : Makes c (.text "")
  | property {target : String} {p : ActorProperty} (h : c .kind = some "property")
      (htarget : c .target = some target) (hp : c .property = some p) :
      Makes c (.property target p)
  | yes (h : c .kind = some "true") : Makes c (.truth true)
  | no (h : c .kind = some "false") : Makes c (.truth false)

/-- `Stores j f`: the value `j` stores the formula `f`. -/
inductive Stores : Json JsonNumber → Formula → Prop
  | node {j : Json JsonNumber} {slots : Field → Option (Json JsonNumber)} {c : Contents}
      {f : Formula} (hj : Node j slots) (hc : ∀ field, Holds Stores field (slots field) (c field))
      (hf : Makes c f) : Stores j f

end Format

end SceneFormula
