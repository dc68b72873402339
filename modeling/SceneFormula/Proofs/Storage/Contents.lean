import SceneFormula.Proofs.Storage
import SceneFormula.Proofs.Storage.Format

/-!
# Contents of a node

A field takes a value or refuses it, and it never looks at another field.  So the decoder is told
field by field here: what a field takes of a value, and what the fields make when they are full.
-/

namespace SceneFormula

open Format (Holds Makes)

theorem bind_eq_ok_iff {ε α β : Type} {a : Except ε α} {k : α → Except ε β} {y : β} :
    a >>= k = .ok y ↔ ∃ x, a = .ok x ∧ k x = .ok y := by
  cases a with
  | error e => simp [bind, Except.bind]
  | ok x => simp [bind, Except.bind]

abbrev Formula.Decodes (j : Json JsonNumber) (f : Formula) : Prop := ofJson j = .ok f

namespace Fields

def content (fs : Fields) : Contents
  | .kind => fs.kind
  | .value => fs.value
  | .left => fs.left
  | .right => fs.right
  | .target => fs.target
  | .property => fs.property

def ofContents (c : Contents) : Fields where
  kind := c .kind
  value := c .value
  left := c .left
  right := c .right
  target := c .target
  property := c .property

@[simp] theorem content_ofContents (c : Contents) : (ofContents c).content = c := by
  funext field
  cases field <;> rfl

theorem content_injective {fs gs : Fields} (h : fs.content = gs.content) : fs = gs :=
  congrArg ofContents h

theorem content_empty (field : Field) : ({} : Fields).content field = none := by
  cases field <;> rfl

/-- Puts `x` into a field; nothing leaves it as it is. -/
def put (fs : Fields) (field : Field) (x : Option field.Content) : Fields :=
  ofContents (Function.update fs.content field (x.or (fs.content field)))

theorem content_put_self (fs : Fields) (field : Field) (x : Option field.Content) :
    (fs.put field x).content field = x.or (fs.content field) := by
  rw [put, content_ofContents, Function.update_self]

theorem content_put_of_ne (fs : Fields) {field other : Field} (h : other ≠ field)
    (x : Option field.Content) : (fs.put field x).content other = fs.content other := by
  rw [put, content_ofContents, Function.update_of_ne h]

end Fields

/-! ### What one field takes -/

namespace Format

variable {P Q : Json JsonNumber → Formula → Prop} {field : Field}

theorem holds_none_iff {x : Option field.Content} : Holds P field none x ↔ x = none := by
  constructor
  · intro h
    cases h
    rfl
  · rintro rfl
    exact .absent

/-- In every field but the kind, null is as good as nothing. -/
theorem holds_null_iff (hP : ∀ f, ¬ P .null f) (hfield : field ≠ .kind)
    {x : Option field.Content} : Holds P field (some .null) x ↔ Holds P field none x := by
  rw [holds_none_iff]
  constructor
  · intro h
    cases h with
    | null => rfl
    | operand h => exact absurd h (hP _)
    | left h => exact absurd h (hP _)
    | right h => exact absurd h (hP _)
  · rintro rfl
    exact .null hfield

theorem Holds.imp {slot : Option (Json JsonNumber)} {x : Option field.Content}
    (h : Holds P field slot x) (hPQ : ∀ j f, slot = some j → P j f → Q j f) :
    Holds Q field slot x := by
  cases h with
  | absent => exact .absent
  | null h => exact .null h
  | kind tag => exact .kind tag
  | number x => exact .number x
  | string s => exact .string s
  | operand h => exact .operand (hPQ _ _ rfl h)
  | left h => exact .left (hPQ _ _ rfl h)
  | right h => exact .right (hPQ _ _ rfl h)
  | target target => exact .target target
  | property p => exact .property p
  | propertyObject p => exact .propertyObject p

end Format

theorem ActorProperty.ofName_eq_ok_iff {name : String} {p : ActorProperty} :
    ofName name = .ok p ↔ p.name = name := by
  rw [ofName, ← ofName?_eq_some_iff]
  cases ofName? name <;> simp

theorem ActorProperty.ofJson_eq_ok_iff {j : Json JsonNumber} {p : ActorProperty} :
    ofJson j = .ok p ↔ j = .string p.name ∨ j = .object [(p.name, .null)] := by
  constructor
  · intro h
    unfold ofJson at h
    split at h
    next name => exact .inl (congrArg Json.string (ofName_eq_ok_iff.mp h).symm)
    next name j =>
      split at h
      next q hq =>
        obtain rfl : q = p := Except.ok.inj h
        rw [ofName_eq_ok_iff.mp hq]
        exact .inr rfl
      next => cases h
      next => cases h
    next => cases h
  · rintro (rfl | rfl)
    · exact ofName_eq_ok_iff.mpr rfl
    · have hname : ofName p.name = .ok p := ofName_eq_ok_iff.mpr rfl
      simp only [ofJson, hname]

namespace Fields

open Formula (ofJson Decodes)

/-- A node of kind `number` makes the word that its number denotes. -/
theorem formula_of_kind_number {fs : Fields} {x : JsonNumber} (h : fs.kind = some "number")
    (hx : fs.value = some (.number x)) :
    fs.formula = x.toInt64?.elim (.error (.rejected NodeFault.numberNotInteger.toError))
      fun n => .ok (.number n) := by
  have hbinary : BinaryOp.ofTag? "number" = none := by decide
  have hunary : UnaryOp.ofTag? "number" = none := by decide
  simp only [formula, h, build, hbinary, hunary, hx]
  cases x.toInt64? <;> rfl

theorem formula_number {fs : Fields} {x : JsonNumber} {n : Int64} (h : fs.kind = some "number")
    (hx : fs.value = some (.number x)) (hn : x.toInt64? = some n) :
    fs.formula = .ok (.number n) := by
  rw [formula_of_kind_number h hx, hn]
  rfl

theorem formula_of_makes {fs : Fields} {f : Formula} (h : Makes fs.content f) :
    fs.formula = .ok f := by
  obtain ⟨kind, value, left, right, target, property⟩ := fs
  cases h with
  | binary h => exact formula_binary _ h
  | unary h hx => exact formula_unary _ h hx
  | integer h hk => exact formula_number h hk rfl
  | @decimal x h hx hfinite hwhole =>
    have hn : JsonNumber.toInt64? (.decimal x) = some x.toInt64 := by
      rw [JsonNumber.toInt64?, hfinite, hwhole]
      rfl
    exact formula_number h hx hn
  | var h hid =>
    cases h
    cases hid
    rfl
  | text h hsource =>
    cases h
    cases hsource
    rfl
  | emptyText h hnone =>
    cases h
    cases hnone
    rfl
  | property h htarget hp =>
    cases h
    cases htarget
    cases hp
    rfl
  | yes h =>
    cases h
    rfl
  | no h =>
    cases h
    rfl

theorem makes_of_number {c : Contents} {x : JsonNumber} (h : c .kind = some "number")
    (hx : c .value = some (.number x)) {n : Int64} (hn : x.toInt64? = some n) :
    Makes c (.number n) := by
  cases x with
  | integer k =>
    obtain rfl := Option.some.inj hn
    exact .integer h hx
  | decimal x =>
    rw [JsonNumber.toInt64?, Option.ite_none_right_eq_some, Bool.and_eq_true] at hn
    obtain ⟨⟨hfinite, hwhole⟩, hn⟩ := hn
    obtain rfl := Option.some.inj hn
    exact .decimal h hx hfinite hwhole

theorem makes_of_build {fs : Fields} {tag : String} (h : fs.kind = some tag) {f : Formula}
    (hf : fs.build tag = .ok f) : Makes fs.content f := by
  unfold build at hf
  split at hf
  next op _ hop =>
    obtain rfl := BinaryOp.ofTag?_eq_some_iff.mp hop
    obtain rfl := Except.ok.inj hf
    exact .binary h
  next op _ hop =>
    obtain rfl := UnaryOp.ofTag?_eq_some_iff.mp hop
    split at hf
    next hnone =>
      obtain rfl := Except.ok.inj hf
      exact .unary h hnone
    next f' hnode =>
      obtain rfl := Except.ok.inj hf
      exact .unary h hnode
    next => cases hf
  next =>
    split at hf
    next =>
      split at hf
      next x hx =>
        split at hf
        next n hn =>
          obtain rfl := Except.ok.inj hf
          exact makes_of_number h hx hn
        next => cases hf
      next => cases hf
    next =>
      split at hf
      next id hid =>
        obtain rfl := Except.ok.inj hf
        exact .var h hid
      next => cases hf
    next =>
      split at hf
      next source hsource =>
        obtain rfl := Except.ok.inj hf
        exact .text h hsource
      next hnone =>
        obtain rfl := Except.ok.inj hf
        exact .emptyText h hnone
      next => cases hf
    next =>
      split at hf
      next target p htarget hp =>
        obtain rfl := Except.ok.inj hf
        exact .property h htarget hp
      next => cases hf
    next =>
      obtain rfl := Except.ok.inj hf
      exact .yes h
    next =>
      obtain rfl := Except.ok.inj hf
      exact .no h
    next => cases hf

theorem formula_eq_ok_iff {fs : Fields} {f : Formula} :
    fs.formula = .ok f ↔ Makes fs.content f := by
  constructor
  · intro h
    unfold formula at h
    split at h
    next => cases h
    next tag hkind =>
      cases hbuild : fs.build tag with
      | error fault =>
        rw [hbuild] at h
        cases h
      | ok g =>
        rw [hbuild] at h
        obtain rfl : g = f := Except.ok.inj h
        exact makes_of_build hkind hbuild
  · exact formula_of_makes

theorem payload_eq_ok_iff {j : Json JsonNumber} (hj : j ≠ .null) {x : Payload} :
    Payload.ofJson (fun _ => ofJson j) j = .ok x ↔
      Holds Decodes .value (some j) (some x) := by
  constructor
  · intro h
    unfold Payload.ofJson at h
    split at h
    next x =>
      obtain rfl := Except.ok.inj h
      exact .number x
    next s =>
      obtain rfl := Except.ok.inj h
      exact .string s
    next =>
      split at h
      next f hf =>
        obtain rfl := Except.ok.inj h
        exact .operand hf
      next => cases h
  · intro h
    cases h with
    | number x => rfl
    | string s => rfl
    | operand h =>
      cases j with
      | object ms => simp only [Payload.ofJson, h]
      | array js => simp only [Payload.ofJson, h]
      | _ => cases h

theorem setJson_eq_ok_iff {fs gs : Fields} {field : Field} {j : Json JsonNumber} :
    fs.setJson field j (fun _ => ofJson j) = .ok gs ↔
      ∃ x, Holds Decodes field (some j) x ∧ gs = fs.put field x := by
  constructor
  · intro h
    unfold setJson at h
    split at h
    next tag =>
      obtain rfl := Except.ok.inj h
      exact ⟨some tag, .kind tag, rfl⟩
    next => cases h
    next hkind =>
      obtain rfl := Except.ok.inj h
      refine ⟨none, .null hkind, ?_⟩
      cases field <;> rfl
    next hj =>
      obtain ⟨x, hx, h⟩ := bind_eq_ok_iff.mp h
      obtain rfl := Except.ok.inj h
      exact ⟨some x, (payload_eq_ok_iff hj).mp hx, rfl⟩
    next =>
      obtain ⟨f, hf, h⟩ := bind_eq_ok_iff.mp h
      obtain rfl := Except.ok.inj h
      exact ⟨some f, .left hf, rfl⟩
    next =>
      obtain ⟨f, hf, h⟩ := bind_eq_ok_iff.mp h
      obtain rfl := Except.ok.inj h
      exact ⟨some f, .right hf, rfl⟩
    next target =>
      obtain rfl := Except.ok.inj h
      exact ⟨some target, .target target, rfl⟩
    next => cases h
    next =>
      obtain ⟨p, hp, h⟩ := bind_eq_ok_iff.mp h
      obtain rfl := Except.ok.inj h
      refine ⟨some p, ?_, rfl⟩
      rcases ActorProperty.ofJson_eq_ok_iff.mp hp with rfl | rfl
      · exact .property p
      · exact .propertyObject p
  · rintro ⟨x, hx, rfl⟩
    cases hx with
    | null h =>
      cases field with
      | kind => exact absurd rfl h
      | _ => rfl
    | kind tag => rfl
    | number x => rfl
    | string s => rfl
    | operand h => exact fs.setJson_node (by decide) h
    | left h => exact fs.setJson_node (by decide) h
    | right h => exact fs.setJson_node (by decide) h
    | target target => rfl
    | property p =>
      have hp : ActorProperty.ofJson (.string p.name) = .ok p :=
        ActorProperty.ofJson_eq_ok_iff.mpr (.inl rfl)
      simp only [setJson, hp]
      rfl
    | propertyObject p =>
      have hp : ActorProperty.ofJson (.object [(p.name, .null)]) = .ok p :=
        ActorProperty.ofJson_eq_ok_iff.mpr (.inr rfl)
      simp only [setJson, hp]
      rfl

end Fields

end SceneFormula
