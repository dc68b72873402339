import SceneFormula.Proofs.Json.Text
import SceneFormula.Proofs.Storage.Agreement

/-!
# Storing formulas

A formula that was stored is had back exactly.  As a JSON value it may be of any height; a text has
room for 127 open objects, which is one for every node on a path from the root, so that a higher
formula is lost in it.
-/

namespace SceneFormula

namespace Fields

theorem formula_binary (fs : Fields) {op : BinaryOp} (h : fs.kind = some op.tag) :
    fs.formula = .ok (.binary op fs.left fs.right) := by
  simp only [formula, h, build, BinaryOp.ofTag?_tag]
  rfl

theorem formula_unary (fs : Fields) {op : UnaryOp} {x : Option Formula}
    (h : fs.kind = some op.tag) (hx : fs.value = x.map .node) :
    fs.formula = .ok (.unary op x) := by
  simp only [formula, h, build, UnaryOp.binary_ofTag?_tag, UnaryOp.ofTag?_tag, hx]
  cases x <;> rfl

/-- The fields with a node in the place of an operand. -/
def putNode (fs : Fields) (f : Formula) : Field → Fields
  | .value => { fs with value := some (.node f) }
  | .left => { fs with left := some f }
  | .right => { fs with right := some f }
  | _ => fs

/-- Numbers and strings store no formula, so a node is not taken for one of them. -/
theorem setJson_node (fs : Fields) {field : Field}
    (hfield : field ∈ [Field.value, .left, .right]) {j : Json JsonNumber} {f : Formula}
    (h : Formula.ofJson j = .ok f) :
    fs.setJson field j (fun _ => Formula.ofJson j) = .ok (fs.putNode f field) := by
  simp only [List.mem_cons, List.not_mem_nil, or_false] at hfield
  cases j with
  | array items =>
    rcases hfield with rfl | rfl | rfl <;> simp only [setJson, Payload.ofJson, h] <;> rfl
  | object members =>
    rcases hfield with rfl | rfl | rfl <;> simp only [setJson, Payload.ofJson, h] <;> rfl
  | _ => cases h

theorem setReading_value_of_none {fs : Fields} {room : Nat} {r : Reading}
    {asNode : Unit → Except DecodeFault Formula} (h : r.json? room = none) :
    fs.setReading room .value r asNode = .error .malformed := by
  cases r with
  | null => cases h
  | _ => simp only [setReading, h]

theorem setReading_node {fs : Fields} {field : Field} (hfield : field ∈ [Field.left, .right])
    {room : Nat} {r : Reading} (hr : r ≠ .null) (asNode : Unit → Except DecodeFault Formula) :
    fs.setReading room field r asNode = (asNode ()).map fun f => fs.putNode f field := by
  simp only [List.mem_cons, List.not_mem_nil, or_false] at hfield
  cases r with
  | null => exact absurd rfl hr
  | _ => rcases hfield with rfl | rfl <;> rfl

end Fields

namespace Formula

/-! ### JSON values -/

theorem fieldsOfMembers_cons (field : Field) {j : Json JsonNumber} {fs fs' : Fields}
    (h : fs.setJson field j (fun _ => ofJson j) = .ok fs') {seen : List Field}
    (hnew : field ∉ seen) (ms : List (String × Json JsonNumber)) :
    fieldsOfMembers ((field.key, j) :: ms) seen fs = fieldsOfMembers ms (field :: seen) fs' := by
  rw [fieldsOfMembers, Field.ofKey?_key]
  simp only [if_neg hnew, h]
  rfl

/-- The members that store an operand under a key: none for one that is absent. -/
inductive StoresOperand (key : String) : List (String × Json JsonNumber) → Option Formula → Prop
  | absent : StoresOperand key [] none
  | present {j : Json JsonNumber} {f : Formula} (h : ofJson j = .ok f) :
      StoresOperand key [(key, j)] (some f)

theorem fieldsOfMembers_operand {field : Field} (hfield : field ∈ [Field.value, .left, .right])
    {xs : List (String × Json JsonNumber)} {x : Option Formula}
    (h : StoresOperand field.key xs x) {seen : List Field} (hnew : field ∉ seen) (fs : Fields) :
    fieldsOfMembers xs seen fs = .ok (x.elim fs fun f => fs.putNode f field) := by
  cases h with
  | absent => rfl
  | present h => exact fieldsOfMembers_cons field (fs.setJson_node hfield h) hnew []

theorem ofJson_binary {op : BinaryOp} {ls rs : List (String × Json JsonNumber)}
    {l r : Option Formula} (hl : StoresOperand "valueA" ls l) (hr : StoresOperand "valueB" rs r) :
    ofJson (.object (("type", .string op.tag) :: (ls ++ rs))) = .ok (.binary op l r) := by
  have hkind : fieldsOfMembers (("type", .string op.tag) :: (ls ++ rs)) [] {} =
      fieldsOfMembers (ls ++ rs) [.kind] { kind := some op.tag } :=
    fieldsOfMembers_cons .kind rfl (by decide) _
  have hright (seen : List Field) (hnew : .right ∉ seen) (fs : Fields) :
      fieldsOfMembers rs seen fs = .ok (r.elim fs fun f => fs.putNode f .right) :=
    fieldsOfMembers_operand (by decide : Field.right ∈ _) hr hnew fs
  have hfields : fieldsOfMembers (ls ++ rs) [.kind] { kind := some op.tag } =
      .ok { kind := some op.tag, left := l, right := r } := by
    cases hl with
    | absent =>
      refine (hright [.kind] (by decide) _).trans ?_
      cases r <;> rfl
    | present hl =>
      have hleft := Fields.setJson_node { kind := some op.tag } (by decide : Field.left ∈ _) hl
      refine (fieldsOfMembers_cons .left hleft (by decide) rs).trans ?_
      refine (hright [.left, .kind] (by decide) _).trans ?_
      cases r <;> rfl
  rw [ofJson, hkind, hfields]
  exact Fields.formula_binary { kind := some op.tag, left := l, right := r } rfl

theorem ofJson_unary {op : UnaryOp} {xs : List (String × Json JsonNumber)} {x : Option Formula}
    (hx : StoresOperand "value" xs x) :
    ofJson (.object (("type", .string op.tag) :: xs)) = .ok (.unary op x) := by
  have hkind : fieldsOfMembers (("type", .string op.tag) :: xs) [] {} =
      fieldsOfMembers xs [.kind] { kind := some op.tag } :=
    fieldsOfMembers_cons .kind rfl (by decide) _
  have hfields : fieldsOfMembers xs [.kind] { kind := some op.tag } =
      .ok { kind := some op.tag, value := x.map .node } := by
    refine (fieldsOfMembers_operand (by decide : Field.value ∈ _) hx (by decide) _).trans ?_
    cases x <;> rfl
  rw [ofJson, hkind, hfields]
  exact Fields.formula_unary { kind := some op.tag, value := x.map .node } rfl rfl

theorem ofJson_number (n : Int64) :
    ofJson (.object [("type", .string "number"), ("value", .number (.integer n.toInt))]) =
      .ok (number n) := by
  have hn : Int64.ofIntClamp n.toInt = n := Int64.ofIntClamp_toInt n
  change Except.ok (number (Int64.ofIntClamp n.toInt)) = _
  rw [hn]

mutual

/-- A formula stored as a JSON value is had back. -/
theorem ofJson_toJson (f : Formula) : ofJson (f.toJson.mapNumbers .integer) = .ok f := by
  match f with
  | number n => exact ofJson_number n
  | var id => rfl
  | property target p => cases p <;> rfl
  | text source => rfl
  | truth true => rfl
  | truth false => rfl
  | binary op l r =>
    rw [toJson, Json.mapNumbers, Json.mapMembers, Json.mapMembers_append]
    exact ofJson_binary (storesOperand_operandMember "valueA" l)
      (storesOperand_operandMember "valueB" r)
  | unary op x => exact ofJson_unary (storesOperand_operandMember "value" x)

theorem storesOperand_operandMember (key : String) (x : Option Formula) :
    StoresOperand key (Json.mapMembers .integer (operandMember key x)) x := by
  match x with
  | none => exact .absent
  | some f => exact .present (ofJson_toJson f)

end

mutual

/-- The members of an object may also be in order of their keys. -/
theorem ofJson_sorted_toJson (f : Formula) :
    ofJson (f.toJson.mapNumbers .integer).sorted = .ok f := by
  match f with
  | number n => exact ofJson_number n
  | var id => rfl
  | property target p => cases p <;> rfl
  | text source => rfl
  | truth true => rfl
  | truth false => rfl
  | binary op l r =>
    have hl := storesOperand_sorted "valueA" l
    have hr := storesOperand_sorted "valueB" r
    rw [toJson, Json.mapNumbers, Json.mapMembers, Json.mapMembers_append, Json.sorted]
    have hsort : Json.sortedMembers (("type", (Json.string op.tag).mapNumbers .integer) ::
        (Json.mapMembers JsonNumber.integer (operandMember "valueA" l) ++
          Json.mapMembers .integer (operandMember "valueB" r))) [] =
        ("type", .string op.tag) ::
          (Json.sortedMembers (Json.mapMembers .integer (operandMember "valueA" l)) [] ++
            Json.sortedMembers (Json.mapMembers .integer (operandMember "valueB" r)) []) := by
      cases l <;> cases r <;> rfl
    rw [hsort]
    exact ofJson_binary hl hr
  | unary op x =>
    have hx := storesOperand_sorted "value" x
    rw [toJson, Json.mapNumbers, Json.mapMembers, Json.sorted]
    cases x with
    | none => exact ofJson_unary hx
    | some f => exact ofJson_unary hx

theorem storesOperand_sorted (key : String) (x : Option Formula) :
    StoresOperand key
      (Json.sortedMembers (Json.mapMembers .integer (operandMember key x)) []) x := by
  match x with
  | none => exact .absent
  | some f => exact .present (ofJson_sorted_toJson f)

end

/-! ### Texts -/

mutual

/-- The number of nodes on the longest path from the root to a leaf. -/
def height : Formula → Nat
  | binary _ l r => max (heightOperand l) (heightOperand r) + 1
  | unary _ x => heightOperand x + 1
  | _ => 1

def heightOperand : Option Formula → Nat
  | none => 0
  | some f => f.height

end

mutual

/-- One object is open for every node on a path. -/
theorem depth_toJson (f : Formula) : f.toJson.depth = f.height := by
  match f with
  | number n => rfl
  | var id => rfl
  | property target p => rfl
  | text source => rfl
  | truth true => rfl
  | truth false => rfl
  | binary op l r =>
    simp only [toJson, Json.depth, Json.depthMembers, Json.depthMembers_append,
      depthMembers_operandMember, height, Nat.zero_max]
  | unary op x =>
    simp only [toJson, Json.depth, Json.depthMembers, depthMembers_operandMember, height,
      Nat.zero_max]

theorem depthMembers_operandMember (key : String) (x : Option Formula) :
    Json.depthMembers (operandMember key x) = heightOperand x := by
  match x with
  | none => rfl
  | some f => simp only [operandMember, Json.depthMembers, depth_toJson f, heightOperand,
      Nat.max_zero]

end

mutual

theorem fits_toJson (f : Formula) : f.toJson.Fits := by
  match f with
  | number n =>
    have hlo := Int64.le_toInt n
    have hhi := Int64.toInt_lt n
    refine ⟨trivial, ⟨by omega, by omega⟩, trivial⟩
  | var id => exact ⟨trivial, trivial, trivial⟩
  | property target p => exact ⟨trivial, trivial, trivial, trivial⟩
  | text source => exact ⟨trivial, trivial, trivial⟩
  | truth true => exact ⟨trivial, trivial⟩
  | truth false => exact ⟨trivial, trivial⟩
  | binary op l r =>
    exact ⟨trivial, Json.fitsMembers_append (fitsMembers_operandMember "valueA" l)
      (fitsMembers_operandMember "valueB" r)⟩
  | unary op x => exact ⟨trivial, fitsMembers_operandMember "value" x⟩

theorem fitsMembers_operandMember (key : String) (x : Option Formula) :
    Json.FitsMembers (operandMember key x) := by
  match x with
  | none => trivial
  | some f => exact ⟨fits_toJson f, trivial⟩

end

theorem json?_reading_toJson (f : Formula) (room : Nat) :
    f.toJson.reading.json? room =
      if f.height ≤ room then some (f.toJson.mapNumbers .integer) else none := by
  rw [Json.json?_reading f.toJson (fits_toJson f), depth_toJson]

theorem ofReading_of_height_le {room : Nat} {f : Formula} (h : f.height ≤ room) :
    ofReading room f.toJson.reading = .ok f := by
  have hjson : f.toJson.reading.json? room = some (f.toJson.mapNumbers .integer) := by
    rw [json?_reading_toJson, if_pos h]
  have hoption := toOption_ofReading f.toJson.reading hjson
  rw [ofJson_toJson f] at hoption
  cases hread : ofReading room f.toJson.reading with
  | error e =>
    rw [hread] at hoption
    cases hoption
  | ok g =>
    rw [hread] at hoption
    exact congrArg Except.ok (Option.some.inj hoption)

theorem fieldsOfKeyed_cons {room : Nat} (field : Field) (r : Reading) {seen : List Field}
    (hnew : field ∉ seen) (ms : List (Option String × Reading)) (fs : Fields) :
    fieldsOfKeyed room ((some field.key, r) :: ms) seen fs =
      fs.setReading room field r (fun _ => ofReading room r) >>=
        fieldsOfKeyed room ms (field :: seen) := by
  rw [fieldsOfKeyed, Field.ofKey?_key]
  simp only [if_neg hnew]

theorem ofReading_of_kind {room : Nat} (tag : String) {ms : List (Option String × Reading)}
    {e : DecodeFault} (h : fieldsOfKeyed room ms [.kind] { kind := some tag } = .error e) :
    ofReading (room + 1) (.object ((some "type", .string (some tag)) :: ms) .closed) =
      .error e := by
  have hkind : fieldsOfKeyed room ((some "type", .string (some tag)) :: ms) [] {} =
      fieldsOfKeyed room ms [.kind] { kind := some tag } :=
    fieldsOfKeyed_cons .kind _ (by decide) ms {}
  rw [ofReading, hkind, h]
  rfl

theorem reading_toJson_ne_null (f : Formula) : f.toJson.reading ≠ .null := by
  cases f with
  | truth b => cases b <;> simp [toJson, Json.reading]
  | _ => simp [toJson, Json.reading]

theorem fieldsOfKeyed_of_error {room : Nat} {f : Formula} {e : DecodeFault}
    (h : ofReading room f.toJson.reading = .error e) {field : Field}
    (hfield : field ∈ [Field.left, .right]) {seen : List Field} (hnew : field ∉ seen)
    (ms : List (Option String × Reading)) (fs : Fields) :
    fieldsOfKeyed room ((some field.key, f.toJson.reading) :: ms) seen fs = .error e := by
  rw [fieldsOfKeyed_cons field _ hnew,
    Fields.setReading_node hfield (reading_toJson_ne_null f), h]
  rfl

/-- Where a formula is too high for the room that there is, the text breaks its limit. -/
theorem ofReading_of_lt_height {room : Nat} (f : Formula) (h : room < f.height) :
    ofReading room f.toJson.reading = .error .malformed := by
  match room, f with
  | 0, f =>
    cases f with
    | truth b => cases b <;> rfl
    | _ => rfl
  | room + 1, unary op none => exact absurd h (by simp [height, heightOperand])
  | room + 1, unary op (some f) =>
    have hf : room < f.height := Nat.lt_of_succ_lt_succ h
    have hjson : f.toJson.reading.json? room = none := by
      rw [json?_reading_toJson, if_neg (Nat.not_le.mpr hf)]
    refine ofReading_of_kind op.tag ?_
    refine (fieldsOfKeyed_cons .value f.toJson.reading (by decide) _ _).trans ?_
    rw [Fields.setReading_value_of_none hjson]
    rfl
  | room + 1, binary op none none => exact absurd h (by simp [height, heightOperand])
  | room + 1, binary op none (some g) =>
    have hg : room < g.height := by simpa [height, heightOperand] using h
    have hread := ofReading_of_lt_height g hg
    refine ofReading_of_kind op.tag ?_
    exact fieldsOfKeyed_of_error hread (by decide : Field.right ∈ _) (by decide) [] _
  | room + 1, binary op (some f) none =>
    have hf : room < f.height := by simpa [height, heightOperand] using h
    have hread := ofReading_of_lt_height f hf
    refine ofReading_of_kind op.tag ?_
    exact fieldsOfKeyed_of_error hread (by decide : Field.left ∈ _) (by decide) [] _
  | room + 1, binary op (some f) (some g) =>
    refine ofReading_of_kind op.tag ?_
    rcases Nat.lt_or_ge room f.height with hf | hf
    · have hread := ofReading_of_lt_height f hf
      exact fieldsOfKeyed_of_error hread (by decide : Field.left ∈ _) (by decide) _ _
    · -- The left operand fits, and reading gets as far as the right one.
      have hg : room < g.height := by
        simp only [height, heightOperand, Nat.succ_lt_succ_iff, lt_max_iff] at h
        exact h.resolve_left (Nat.not_lt.mpr hf)
      have hread := ofReading_of_lt_height g hg
      refine (fieldsOfKeyed_cons .left f.toJson.reading (by decide) _ _).trans ?_
      rw [Fields.setReading_node (by decide) (reading_toJson_ne_null f), ofReading_of_height_le hf]
      change fieldsOfKeyed room [(some "valueB", g.toJson.reading)] [.left, .kind] _ = _
      exact fieldsOfKeyed_of_error hread (by decide : Field.right ∈ _) (by decide) [] _
  | room + 1, number n => exact absurd h (by simp [height])
  | room + 1, var id => exact absurd h (by simp [height])
  | room + 1, property target p => exact absurd h (by simp [height])
  | room + 1, text source => exact absurd h (by simp [height])
  | room + 1, truth b => exact absurd h (by simp [height])

theorem ofStored_write (layout : Layout) (j : Json Int) :
    ofStored (String.ofList (j.write layout [])) = ofReading maxOpen j.reading := by
  rw [ofStored, String.toList_ofList, Reading.read_write]
  change (do
    let g ← ofReading maxOpen j.reading
    if Reading.isLast (some []) then .ok g else .error .malformed) = _
  cases ofReading maxOpen j.reading <;> rfl

theorem ofStored_write_of_height_le {f : Formula} (h : f.height ≤ 127) (layout : Layout) :
    ofStored (String.ofList (f.toJson.write layout [])) = .ok f :=
  (ofStored_write layout f.toJson).trans (ofReading_of_height_le h)

theorem ofStored_write_of_lt_height {f : Formula} (h : 127 < f.height) (layout : Layout) :
    ofStored (String.ofList (f.toJson.write layout [])) = .error .malformed :=
  (ofStored_write layout f.toJson).trans (ofReading_of_lt_height f h)

theorem ofStored_write_eq_ok_iff {f : Formula} {layout : Layout} :
    ofStored (String.ofList (f.toJson.write layout [])) = .ok f ↔ f.height ≤ 127 := by
  constructor
  · intro hok
    by_contra h
    rw [ofStored_write_of_lt_height (Nat.not_le.mp h)] at hok
    cases hok
  · intro h
    exact ofStored_write_of_height_le h layout

/-- A formula is had back from its JSON value, whatever its height is and also if the members of
every object are put in order of their keys.  It is had back from its text, on one line or on
several, just if no path in it has more than 127 nodes; the text of a higher one is malformed. -/
theorem storage_round_trip (f : Formula) :
    ofJson (f.toJson.mapNumbers .integer) = .ok f ∧
      ofJson (f.toJson.mapNumbers .integer).sorted = .ok f ∧
      ∀ text ∈ [f.toJson.compact, f.toJson.pretty],
        (ofStored text = .ok f ↔ f.height ≤ 127) ∧
          (127 < f.height → ofStored text = .error .malformed) := by
  refine ⟨ofJson_toJson f, ofJson_sorted_toJson f, fun text htext => ?_⟩
  have hstored : ofStored text = ofReading maxOpen f.toJson.reading := by
    rcases List.mem_pair.mp htext with rfl | rfl
    · exact ofStored_write .compact f.toJson
    · exact ofStored_write (.lines 0) f.toJson
  have hfault (h : 127 < f.height) : ofStored text = .error .malformed :=
    hstored.trans (ofReading_of_lt_height f h)
  refine ⟨⟨fun hok => ?_, fun h => hstored.trans (ofReading_of_height_le h)⟩, hfault⟩
  by_contra h
  rw [hfault (Nat.not_le.mp h)] at hok
  cases hok

end Formula

end SceneFormula
