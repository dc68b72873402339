import SceneFormula.Formula.Stored
import Mathlib.Tactic

/-!
# Decoding a text and decoding its value

A text that spells a JSON value stores a formula just if the value does, and it is the same formula.
The two decoders differ only in the fault that they report: on a text it depends on what is read
first.
-/

namespace SceneFormula

theorem toOption_bind_congr {ε α β : Type} {a b : Except ε α} {k l : α → Except ε β}
    (h : a.toOption = b.toOption) (hk : ∀ x, (k x).toOption = (l x).toOption) :
    (a >>= k).toOption = (b >>= l).toOption := by
  cases a with
  | error e =>
    cases b with
    | error e' => rfl
    | ok y => cases h
  | ok x =>
    cases b with
    | error e' => cases h
    | ok y =>
      obtain rfl : x = y := Option.some.inj h
      exact hk x

namespace Reading

/-- How a reading spells a value, where `room` arrays and objects may be opened. -/
inductive Spells : Nat → Reading → Json JsonNumber → Prop
  | null {room : Nat} : Spells room .null .null
  | bool {room : Nat} (b : Bool) : Spells room (.bool b) (.bool b)
  | number {room : Nat} {l : Numeral} {x : JsonNumber} (h : l.value? = some x) :
      Spells room (.number l) (.number x)
  | string {room : Nat} (s : String) : Spells room (.string (some s)) (.string s)
  | array {room : Nat} {rs : List Reading} {js : List (Json JsonNumber)}
      (h : jsonItems? room rs = some js) : Spells (room + 1) (.array rs .closed) (.array js)
  | object {room : Nat} {ms : List (Option String × Reading)}
      {js : List (String × Json JsonNumber)} (h : jsonMembers? room ms = some js) :
      Spells (room + 1) (.object ms .closed) (.object js)

theorem spells_of_json? {room : Nat} {r : Reading} {j : Json JsonNumber}
    (h : r.json? room = some j) : Spells room r j := by
  cases r with
  | broken => cases h
  | null => cases h; exact .null
  | bool b => cases h; exact .bool b
  | number l =>
    obtain ⟨x, hx, rfl⟩ := Option.map_eq_some_iff.mp h
    exact .number hx
  | string s =>
    obtain ⟨t, rfl, rfl⟩ := Option.map_eq_some_iff.mp h
    exact .string t
  | array rs ending =>
    unfold json? at h
    split at h
    next =>
      obtain ⟨js, hjs, rfl⟩ := Option.map_eq_some_iff.mp h
      exact .array hjs
    next => cases h
  | object ms ending =>
    unfold json? at h
    split at h
    next =>
      obtain ⟨js, hjs, rfl⟩ := Option.map_eq_some_iff.mp h
      exact .object hjs
    next => cases h

theorem jsonItems?_cons_cases {room : Nat} {r : Reading} {rs : List Reading}
    {js : List (Json JsonNumber)} (h : jsonItems? room (r :: rs) = some js) :
    ∃ i is, r.json? room = some i ∧ jsonItems? room rs = some is ∧ js = i :: is := by
  simp only [jsonItems?, Option.bind_eq_bind, Option.bind_eq_some_iff, Option.pure_def,
    Option.some.injEq] at h
  obtain ⟨i, hi, is, his, rfl⟩ := h
  exact ⟨i, is, hi, his, rfl⟩

theorem jsonMembers?_cons_cases {room : Nat} {key : Option String} {r : Reading}
    {ms : List (Option String × Reading)} {js : List (String × Json JsonNumber)}
    (h : jsonMembers? room ((key, r) :: ms) = some js) :
    ∃ name i is, key = some name ∧ r.json? room = some i ∧ jsonMembers? room ms = some is ∧
      js = (name, i) :: is := by
  simp only [jsonMembers?, Option.bind_eq_bind, Option.bind_eq_some_iff, Option.pure_def,
    Option.some.injEq] at h
  obtain ⟨name, hname, i, hi, is, his, rfl⟩ := h
  exact ⟨name, i, is, hname, hi, his, rfl⟩

end Reading

open Reading (Spells)

theorem ActorProperty.toOption_ofReading {room : Nat} {r : Reading} {j : Json JsonNumber}
    (h : Spells room r j) :
    (ActorProperty.ofReading room r).toOption = (ActorProperty.ofJson j).toOption := by
  cases h with
  | @object room ms js hjs =>
    rcases ms with _ | ⟨⟨key, r⟩, ms⟩
    · cases hjs
      rfl
    obtain ⟨name, i, is, rfl, hi, his, rfl⟩ := Reading.jsonMembers?_cons_cases hjs
    rw [ofReading, if_neg (Nat.succ_ne_zero room)]
    rcases ms with _ | ⟨⟨key, r'⟩, ms⟩
    · cases his
      cases hp : ofName name with
      | error e =>
        simp only [ofJson, hp]
        rfl
      | ok p =>
        simp only [ofJson, hp]
        cases Reading.spells_of_json? hi <;> rfl
    · obtain ⟨name', i', is', rfl, -, -, rfl⟩ := Reading.jsonMembers?_cons_cases his
      cases ofName name with
      | error e => rfl
      | ok p => cases Reading.spells_of_json? hi <;> rfl
  | _ => rfl

namespace Fields

theorem toOption_setReading (fs : Fields) {room : Nat} (field : Field) {r : Reading}
    {j : Json JsonNumber} (h : r.json? room = some j)
    (hnode : (Formula.ofReading room r).toOption = (Formula.ofJson j).toOption) :
    (fs.setReading room field r fun _ => Formula.ofReading room r).toOption =
      (fs.setJson field j fun _ => Formula.ofJson j).toOption := by
  have hspells := Reading.spells_of_json? h
  cases field with
  | kind => cases hspells <;> rfl
  | value =>
    cases hspells with
    | null => rfl
    | _ =>
      simp only [setReading, h]
      rfl
  | left =>
    cases hspells with
    | null => rfl
    | _ => exact toOption_bind_congr hnode fun _ => rfl
  | right =>
    cases hspells with
    | null => rfl
    | _ => exact toOption_bind_congr hnode fun _ => rfl
  | target => cases hspells <;> rfl
  | property =>
    have hproperty := ActorProperty.toOption_ofReading hspells
    cases hspells with
    | null => rfl
    | _ => exact toOption_bind_congr hproperty fun _ => rfl

end Fields

namespace Formula

mutual

/-- A text stores a formula just if the value that it spells does. -/
theorem toOption_ofReading {room : Nat} (r : Reading) {j : Json JsonNumber}
    (h : r.json? room = some j) : (ofReading room r).toOption = (ofJson j).toOption := by
  match r, Reading.spells_of_json? h with
  | .object ms .closed, .object hjs =>
    rw [ofReading, ofJson]
    exact toOption_bind_congr (toOption_fieldsOfKeyed ms hjs [] {}) fun _ => rfl
  | .array [] .closed, .array hjs =>
    cases hjs
    rfl
  | .array (r :: rs) .closed, .array hjs =>
    obtain ⟨i, is, hi, his, rfl⟩ := Reading.jsonItems?_cons_cases hjs
    rw [ofReading, ofJson]
    exact toOption_bind_congr (toOption_fieldsOfListed (r :: rs) hjs Field.all {}) fun _ => rfl
  | .null, .null => rfl
  | .bool _, .bool _ => rfl
  | .number _, .number _ => rfl
  | .string _, .string _ => rfl

theorem toOption_fieldsOfKeyed {room : Nat} (ms : List (Option String × Reading))
    {js : List (String × Json JsonNumber)} (h : Reading.jsonMembers? room ms = some js)
    (seen : List Field) (fs : Fields) :
    (fieldsOfKeyed room ms seen fs).toOption = (fieldsOfMembers js seen fs).toOption := by
  match ms with
  | [] =>
    cases h
    rfl
  | (key, r) :: ms =>
    obtain ⟨name, i, is, rfl, hi, his, rfl⟩ := Reading.jsonMembers?_cons_cases h
    rw [fieldsOfKeyed, fieldsOfMembers]
    cases Field.ofKey? name with
    | none => exact toOption_fieldsOfKeyed ms his seen fs
    | some field =>
      simp only
      split
      next => rfl
      next =>
        exact toOption_bind_congr (fs.toOption_setReading field hi (toOption_ofReading r hi))
          fun fs => toOption_fieldsOfKeyed ms his (field :: seen) fs

theorem toOption_fieldsOfListed {room : Nat} (rs : List Reading) {js : List (Json JsonNumber)}
    (h : Reading.jsonItems? room rs = some js) (unread : List Field) (fs : Fields) :
    (fieldsOfListed room rs unread fs).toOption = (fieldsOfItems js unread fs).toOption := by
  match rs with
  | [] =>
    cases h
    rfl
  | r :: rs =>
    obtain ⟨i, is, hi, his, rfl⟩ := Reading.jsonItems?_cons_cases h
    cases unread with
    | nil => rfl
    | cons field unread =>
      rw [fieldsOfListed, fieldsOfItems]
      exact toOption_bind_congr (fs.toOption_setReading field hi (toOption_ofReading r hi))
        fun fs => toOption_fieldsOfListed rs his unread fs

end

end Formula

end SceneFormula
