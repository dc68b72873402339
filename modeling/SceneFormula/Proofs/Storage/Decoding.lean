import SceneFormula.Proofs.Storage.Contents

/-!
# Decoding and the stored format

The decoder puts the values of a node into its fields one after another.  No two of them go into one
field, so that the order does not count, and what the fields hold in the end follows from what each
of them takes.  The decoder then accepts the values of the stored format and no others.
-/

namespace SceneFormula

open Format (Holds Makes Node Stores)

theorem toOption_eq_of_ok_iff {ε α : Type} {a b : Except ε α}
    (h : ∀ x, a = .ok x ↔ b = .ok x) : a.toOption = b.toOption := by
  cases a with
  | ok f => rw [(h f).mp rfl]
  | error e =>
    cases b with
    | ok f => cases (h f).mpr rfl
    | error e' => rfl

/-! ### Keys -/

namespace Json

theorem find?_cons (key : String) (m : String × Json JsonNumber)
    (ms : List (String × Json JsonNumber)) :
    Json.find? key (m :: ms) = if m.1 = key then some m.2 else Json.find? key ms := by
  rw [Json.find?, List.find?_cons]
  cases h : m.1 == key with
  | false => rw [if_neg (ne_of_beq_false h), Json.find?]
  | true => rw [if_pos (eq_of_beq h), Option.map_some]

theorem find?_eq_of_perm {ms ms' : List (String × Json JsonNumber)} (h : ms.Perm ms')
    {key : String} (hcount : (ms.map Prod.fst).count key ≤ 1) :
    Json.find? key ms = Json.find? key ms' := by
  induction h with
  | nil => rfl
  | cons m _ ih =>
    rw [List.map_cons, List.count_cons] at hcount
    rw [find?_cons, find?_cons, ih (Nat.le_trans (Nat.le_add_right _ _) hcount)]
  | swap m m' ms =>
    simp only [find?_cons]
    by_cases hm : m.1 = key
    · have hm' : m'.1 ≠ key := by
        intro hm'
        simp [hm, hm'] at hcount
      simp only [if_neg hm']
    · simp only [if_neg hm]
  | trans hperm _ ih ih' =>
    rw [ih hcount]
    rw [(hperm.map Prod.fst).count_eq key] at hcount
    exact ih' hcount

theorem find?_of_not_mem {key : String} {ms : List (String × Json JsonNumber)}
    (h : key ∉ ms.map Prod.fst) : Json.find? key ms = none := by
  rw [Json.find?, Option.map_eq_none_iff, List.find?_eq_none]
  intro m hm heq
  exact h (eq_of_beq heq ▸ List.mem_map_of_mem hm)

end Json

namespace Field

theorem key_injective {field other : Field} (h : field.key = other.key) : field = other := by
  have hfield := Field.ofKey?_key field
  rw [h, Field.ofKey?_key] at hfield
  exact (Option.some.inj hfield).symm

theorem ofKey?_beq_some (key : String) (field : Field) :
    (Field.ofKey? key == some field) = (key == field.key) := by
  rw [Bool.eq_iff_iff, beq_iff_eq, beq_iff_eq, Field.ofKey?_eq_some_iff, eq_comm]

end Field

namespace Format

theorem stores_iff {j : Json JsonNumber} {f : Formula} :
    Stores j f ↔
      ∃ slots c, Node j slots ∧ (∀ field, Holds Stores field (slots field) (c field)) ∧
        Makes c f := by
  constructor
  · rintro ⟨hj, hc, hf⟩
    exact ⟨_, _, hj, hc, hf⟩
  · rintro ⟨slots, c, hj, hc, hf⟩
    exact .node hj hc hf

end Format

namespace Formula

open Fields (setJson_eq_ok_iff)

/-! ### From fields to nodes -/

/-- Puts values into their fields, one after another. -/
def setAll : List (Field × Json JsonNumber) → Fields → Except DecodeFault Fields
  | [], fs => .ok fs
  | (field, j) :: slots, fs => fs.setJson field j (fun _ => ofJson j) >>= setAll slots

/-- Where every field stands at most once, the order of the fields does not count. -/
theorem setAll_eq_ok_iff {slots : List (Field × Json JsonNumber)}
    (h : (slots.map Prod.fst).Nodup) {fs gs : Fields} :
    setAll slots fs = .ok gs ↔
      ∀ field, ∃ x, Holds Decodes field (slots.lookup field) x ∧
        gs.content field = x.or (fs.content field) := by
  induction slots generalizing fs with
  | nil =>
    constructor
    · intro hset field
      obtain rfl := Except.ok.inj hset
      exact ⟨none, .absent, rfl⟩
    · intro hall
      refine congrArg Except.ok (Fields.content_injective (funext fun field => ?_))
      obtain ⟨x, hx, hcontent⟩ := hall field
      obtain rfl := Format.holds_none_iff.mp hx
      exact hcontent.symm
  | cons slot slots ih =>
    obtain ⟨field, j⟩ := slot
    obtain ⟨hfield, hslots⟩ := List.nodup_cons.mp h
    have hnone : slots.lookup field = none := by
      refine List.lookup_eq_none_iff.mpr fun slot hslot => bne_iff_ne.mpr fun heq => hfield ?_
      exact List.mem_map.mpr ⟨slot, hslot, heq.symm⟩
    constructor
    · -- What goes into the first field is not touched again, and the other fields do not see it.
      intro hset other
      obtain ⟨hs, hj, hset⟩ := bind_eq_ok_iff.mp hset
      obtain ⟨x, hx, rfl⟩ := setJson_eq_ok_iff.mp hj
      obtain ⟨y, hy, hcontent⟩ := (ih hslots).mp hset other
      rcases eq_or_ne other field with rfl | hne
      · rw [hnone] at hy
        obtain rfl := Format.holds_none_iff.mp hy
        refine ⟨x, by rwa [List.lookup_cons_self], ?_⟩
        rw [hcontent, Fields.content_put_self]
        rfl
      · refine ⟨y, ?_, ?_⟩
        · rwa [List.lookup_cons, beq_false_of_ne hne]
        · rw [hcontent, Fields.content_put_of_ne fs hne]
    · intro hall
      obtain ⟨x, hx, hcontent⟩ := hall field
      rw [List.lookup_cons_self] at hx
      refine bind_eq_ok_iff.mpr ⟨fs.put field x, setJson_eq_ok_iff.mpr ⟨x, hx, rfl⟩, ?_⟩
      refine (ih hslots).mpr fun other => ?_
      rcases eq_or_ne other field with rfl | hne
      · rw [hnone, Fields.content_put_self]
        exact ⟨none, .absent, hcontent⟩
      · obtain ⟨y, hy, hother⟩ := hall other
        rw [List.lookup_cons, beq_false_of_ne hne] at hy
        exact ⟨y, hy, by rw [hother, Fields.content_put_of_ne fs hne]⟩

/-- The members of known keys. -/
def known (ms : List (String × Json JsonNumber)) : List (Field × Json JsonNumber) :=
  ms.filterMap fun m => (Field.ofKey? m.1).map fun field => (field, m.2)

theorem known_cons_of_none {key : String} (h : Field.ofKey? key = none) (j : Json JsonNumber)
    (ms : List (String × Json JsonNumber)) : known ((key, j) :: ms) = known ms := by
  rw [known, List.filterMap_cons_none (by rw [h]; rfl), known]

theorem known_cons_of_some {key : String} {field : Field} (h : Field.ofKey? key = some field)
    (j : Json JsonNumber) (ms : List (String × Json JsonNumber)) :
    known ((key, j) :: ms) = (field, j) :: known ms := by
  rw [known, List.filterMap_cons_some (by rw [h]; rfl), known]

theorem lookup_known (field : Field) (ms : List (String × Json JsonNumber)) :
    (known ms).lookup field = Json.find? field.key ms := by
  induction ms with
  | nil => rfl
  | cons m ms ih =>
    obtain ⟨key, j⟩ := m
    have hkey := Field.ofKey?_beq_some key field
    rw [Json.find?, List.find?_cons, ← hkey]
    cases hof : Field.ofKey? key with
    | none =>
      rw [known_cons_of_none hof]
      exact ih
    | some other =>
      rw [known_cons_of_some hof, List.lookup_cons, Option.some_beq_some, Bool.beq_comm]
      cases other == field with
      | false => exact ih
      | true => rfl

theorem count_known (field : Field) (ms : List (String × Json JsonNumber)) :
    ((known ms).map Prod.fst).count field = (ms.map Prod.fst).count field.key := by
  have hknown : (known ms).map Prod.fst = (ms.map Prod.fst).filterMap Field.ofKey? := by
    rw [known, List.map_filterMap, List.filterMap_map]
    refine List.filterMap_congr fun m _ => ?_
    cases hof : Field.ofKey? m.1 <;> simp [hof]
  rw [hknown, List.count_filterMap]
  exact List.countP_congr fun key _ => by rw [Field.ofKey?_beq_some]

theorem nodup_known_iff {ms : List (String × Json JsonNumber)} :
    ((known ms).map Prod.fst).Nodup ↔
      ∀ field : Field, (ms.map Prod.fst).count field.key ≤ 1 := by
  simp only [List.nodup_iff_count_le_one, count_known]

theorem map_fst_zip_sublist (fields : List Field) (js : List (Json JsonNumber)) :
    ((fields.zip js).map Prod.fst).Sublist fields := by
  induction fields generalizing js with
  | nil => exact .slnil
  | cons field fields ih =>
    cases js with
    | nil => exact List.nil_sublist _
    | cons j js => exact (ih js).cons_cons field

theorem nodup_zip_all (js : List (Json JsonNumber)) :
    ((Field.all.zip js).map Prod.fst).Nodup := by
  have hall : Field.all.Nodup := by decide
  exact hall.sublist (map_fst_zip_sublist Field.all js)

theorem lookup_zip (field : Field) (fields : List Field) (js : List (Json JsonNumber))
    (h : js.length ≤ fields.length) :
    (fields.zip js).lookup field = js[fields.idxOf field]? := by
  induction fields generalizing js with
  | nil =>
    obtain rfl := List.eq_nil_of_length_eq_zero (Nat.le_zero.mp h)
    rfl
  | cons other fields ih =>
    cases js with
    | nil => rfl
    | cons j js =>
      rw [List.zip_cons_cons, List.lookup_cons, List.idxOf_cons, Bool.beq_comm]
      cases other == field with
      | false => exact ih js (Nat.le_of_succ_le_succ h)
      | true => rfl

/-- Reading the members reads those of known keys, provided that none of them has been read. -/
theorem fieldsOfMembers_eq_ok_iff {ms : List (String × Json JsonNumber)} {seen : List Field}
    {fs gs : Fields} :
    fieldsOfMembers ms seen fs = .ok gs ↔
      ((known ms).map Prod.fst).Nodup ∧ (∀ slot ∈ known ms, slot.1 ∉ seen) ∧
        setAll (known ms) fs = .ok gs := by
  induction ms generalizing seen fs with
  | nil => simp [fieldsOfMembers, known, setAll]
  | cons m ms ih =>
    obtain ⟨key, j⟩ := m
    cases hkey : Field.ofKey? key with
    | none =>
      rw [fieldsOfMembers, hkey, known_cons_of_none hkey]
      exact ih
    | some field =>
      rw [fieldsOfMembers, hkey, known_cons_of_some hkey]
      simp only [List.map_cons, List.nodup_cons, List.forall_mem_cons, setAll]
      by_cases hseen : field ∈ seen
      · -- A second member of one key is refused whatever it holds.
        simp [hseen]
      · have hnew : (∀ slot ∈ known ms, slot.1 ∉ field :: seen) ↔
            field ∉ (known ms).map Prod.fst ∧ ∀ slot ∈ known ms, slot.1 ∉ seen := by
          simp only [List.mem_cons, not_or, List.mem_map, not_exists, not_and, eq_comm]
          exact forall₂_and
        simp only [if_neg hseen, bind_eq_ok_iff, ih, hnew]
        constructor
        · rintro ⟨hs, hj, hnodup, ⟨hfield, hrest⟩, hset⟩
          exact ⟨⟨hfield, hnodup⟩, ⟨hseen, hrest⟩, hs, hj, hset⟩
        · rintro ⟨⟨hfield, hnodup⟩, ⟨-, hrest⟩, hs, hj, hset⟩
          exact ⟨hs, hj, hnodup, ⟨hfield, hrest⟩, hset⟩

theorem fieldsOfItems_eq_ok_iff {js : List (Json JsonNumber)} {unread : List Field}
    {fs gs : Fields} :
    fieldsOfItems js unread fs = .ok gs ↔
      js.length ≤ unread.length ∧ setAll (unread.zip js) fs = .ok gs := by
  induction js generalizing unread fs with
  | nil => simp [fieldsOfItems, setAll]
  | cons j js ih =>
    cases unread with
    | nil => simp [fieldsOfItems]
    | cons field unread =>
      rw [fieldsOfItems, bind_eq_ok_iff, List.zip_cons_cons, setAll, bind_eq_ok_iff]
      simp only [ih, List.length_cons, Nat.add_le_add_iff_right, exists_and_left, and_left_comm]

/-- Once every value is in its field, the fields make the formula. -/
theorem exists_setAll_formula_iff {slots : List (Field × Json JsonNumber)}
    (h : (slots.map Prod.fst).Nodup) {f : Formula} :
    (∃ fs, setAll slots {} = .ok fs ∧ fs.formula = .ok f) ↔
      ∃ c, (∀ field, Holds Decodes field (slots.lookup field) (c field)) ∧ Makes c f := by
  constructor
  · rintro ⟨fs, hset, hf⟩
    refine ⟨fs.content, fun field => ?_, Fields.formula_eq_ok_iff.mp hf⟩
    obtain ⟨x, hx, hcontent⟩ := (setAll_eq_ok_iff h).mp hset field
    rw [Fields.content_empty, Option.or_none] at hcontent
    rwa [hcontent]
  · rintro ⟨c, hc, hf⟩
    refine ⟨Fields.ofContents c, (setAll_eq_ok_iff h).mpr fun field => ?_, ?_⟩
    · refine ⟨c field, hc field, ?_⟩
      rw [Fields.content_ofContents, Fields.content_empty, Option.or_none]
    · rwa [Fields.formula_eq_ok_iff, Fields.content_ofContents]

theorem ofJson_object_eq_ok_iff {ms : List (String × Json JsonNumber)} {f : Formula} :
    ofJson (.object ms) = .ok f ↔
      (∀ field : Field, (ms.map Prod.fst).count field.key ≤ 1) ∧
        ∃ c, (∀ field, Holds Decodes field (Json.find? field.key ms) (c field)) ∧ Makes c f := by
  rw [ofJson, bind_eq_ok_iff]
  simp only [fieldsOfMembers_eq_ok_iff, List.not_mem_nil, not_false_eq_true, implies_true,
    true_and, and_assoc, exists_and_left, ← nodup_known_iff]
  refine and_congr_right fun hnodup => ?_
  simp only [exists_setAll_formula_iff hnodup, lookup_known]

theorem ofJson_array_eq_ok_iff {js : List (Json JsonNumber)} {f : Formula} :
    ofJson (.array js) = .ok f ↔
      js ≠ [] ∧ js.length ≤ 6 ∧
        ∃ c, (∀ field, Holds Decodes field js[Field.all.idxOf field]? (c field)) ∧ Makes c f := by
  cases js with
  | nil => simp [ofJson]
  | cons j js =>
    rw [ofJson, bind_eq_ok_iff]
    simp only [fieldsOfItems_eq_ok_iff, and_assoc, exists_and_left, ne_eq, reduceCtorEq,
      not_false_eq_true, true_and]
    refine and_congr_right fun hlength => ?_
    have hlookup (field : Field) :
        (Field.all.zip (j :: js)).lookup field = (j :: js)[Field.all.idxOf field]? :=
      lookup_zip field Field.all (j :: js) hlength
    simp only [exists_setAll_formula_iff (nodup_zip_all (j :: js)), hlookup]

/-- Decoding a node, given what decoding does on the values that stand in it. -/
theorem ofJson_eq_ok_iff_node {j : Json JsonNumber} {f : Formula} :
    ofJson j = .ok f ↔
      ∃ slots c, Node j slots ∧ (∀ field, Holds Decodes field (slots field) (c field)) ∧
        Makes c f := by
  constructor
  · intro h
    cases j with
    | object ms =>
      obtain ⟨hcount, c, hc, hf⟩ := ofJson_object_eq_ok_iff.mp h
      exact ⟨_, c, .object hcount, hc, hf⟩
    | array js =>
      obtain ⟨hne, hlength, c, hc, hf⟩ := ofJson_array_eq_ok_iff.mp h
      exact ⟨_, c, .array hne hlength, hc, hf⟩
    | _ => cases h
  · rintro ⟨slots, c, hj, hc, hf⟩
    cases hj with
    | object hcount => exact ofJson_object_eq_ok_iff.mpr ⟨hcount, c, hc, hf⟩
    | array hne hlength => exact ofJson_array_eq_ok_iff.mpr ⟨hne, hlength, c, hc, hf⟩

theorem sizeOf_lt_of_node {j i : Json JsonNumber} {slots : Field → Option (Json JsonNumber)}
    (h : Node j slots) {field : Field} (hi : slots field = some i) : sizeOf i < sizeOf j := by
  cases h with
  | @object ms _ =>
    obtain ⟨m, hm, rfl⟩ := Option.map_eq_some_iff.mp hi
    have hmem : sizeOf m < sizeOf ms := List.sizeOf_lt_of_mem (List.mem_of_find?_eq_some hm)
    have hsnd : sizeOf m.2 < sizeOf m := by
      cases m
      simp only [Prod.mk.sizeOf_spec]
      omega
    simp only [Json.object.sizeOf_spec]
    omega
  | @array js _ _ =>
    have hmem : sizeOf i < sizeOf js := List.sizeOf_lt_of_mem (List.mem_of_getElem? hi)
    simp only [Json.array.sizeOf_spec]
    omega

/-- Every value that stands in a node is smaller than the node, so that the decoder may be replaced
by the format there. -/
theorem ofJson_eq_ok_iff (j : Json JsonNumber) (f : Formula) :
    ofJson j = .ok f ↔ Stores j f := by
  constructor
  · intro h
    obtain ⟨slots, c, hj, hc, hf⟩ := ofJson_eq_ok_iff_node.mp h
    refine .node hj (fun field => (hc field).imp fun i g hi hg => ?_) hf
    exact (ofJson_eq_ok_iff i g).mp hg
  · intro h
    obtain ⟨slots, c, hj, hc, hf⟩ := Format.stores_iff.mp h
    refine ofJson_eq_ok_iff_node.mpr ⟨slots, c, hj, fun field => ?_, hf⟩
    exact (hc field).imp fun i g hi hg => (ofJson_eq_ok_iff i g).mpr hg
termination_by sizeOf j
decreasing_by
  all_goals exact sizeOf_lt_of_node hj hi

/-! ### Spellings of one node -/

/-- Two objects decode alike if a known key is repeated in both or in neither, and what stands in
each field holds the same. -/
theorem toOption_ofJson_object_congr {ms ms' : List (String × Json JsonNumber)}
    (hcount : ∀ field : Field, (ms.map Prod.fst).count field.key ≤ 1 ↔
      (ms'.map Prod.fst).count field.key ≤ 1)
    (hslots : (∀ field : Field, (ms.map Prod.fst).count field.key ≤ 1) →
      ∀ (field : Field) (x : Option field.Content),
        Holds Decodes field (Json.find? field.key ms) x ↔
          Holds Decodes field (Json.find? field.key ms') x) :
    (ofJson (.object ms)).toOption = (ofJson (.object ms')).toOption := by
  refine toOption_eq_of_ok_iff fun f => ?_
  rw [ofJson_object_eq_ok_iff, ofJson_object_eq_ok_iff, ← forall_congr' hcount]
  refine and_congr_right fun hone => ?_
  simp only [hslots hone]

theorem toOption_ofJson_of_perm {ms ms' : List (String × Json JsonNumber)} (h : ms.Perm ms') :
    (ofJson (.object ms)).toOption = (ofJson (.object ms')).toOption := by
  refine toOption_ofJson_object_congr (fun field => ?_) fun hone field x => ?_
  · rw [(h.map Prod.fst).count_eq field.key]
  · rw [Json.find?_eq_of_perm h (hone field)]

theorem toOption_ofJson_unknown {key : String} (h : Field.ofKey? key = none)
    (j : Json JsonNumber) (ms : List (String × Json JsonNumber)) :
    (ofJson (.object ((key, j) :: ms))).toOption = (ofJson (.object ms)).toOption := by
  refine toOption_ofJson_object_congr (fun field => ?_) fun hone field x => ?_
  · rw [← count_known, ← count_known, known_cons_of_none h]
  · rw [← lookup_known, ← lookup_known, known_cons_of_none h]

theorem toOption_ofJson_null {field : Field} (hfield : field ≠ .kind)
    {ms : List (String × Json JsonNumber)} (hnew : field.key ∉ ms.map Prod.fst) :
    (ofJson (.object ((field.key, .null) :: ms))).toOption = (ofJson (.object ms)).toOption := by
  refine toOption_ofJson_object_congr (fun other => ?_) fun hone other x => ?_
  · rw [List.map_cons]
    rcases eq_or_ne other field with rfl | hne
    · rw [List.count_cons_self, List.count_eq_zero_of_not_mem hnew]
      simp
    · rw [List.count_cons_of_ne fun heq => hne (Field.key_injective heq).symm]
  · rw [Json.find?_cons]
    rcases eq_or_ne other field with rfl | hne
    · rw [if_pos rfl, Json.find?_of_not_mem hnew]
      exact Format.holds_null_iff (fun f h => nomatch h) hfield
    · rw [if_neg fun heq => hne (Field.key_injective heq).symm]

theorem known_zip (fields : List Field) (js : List (Json JsonNumber)) :
    known ((fields.map Field.key).zip js) = fields.zip js := by
  induction fields generalizing js with
  | nil => rfl
  | cons field fields ih =>
    cases js with
    | nil => rfl
    | cons j js =>
      rw [List.map_cons, List.zip_cons_cons, known_cons_of_some (Field.ofKey?_key field), ih,
        List.zip_cons_cons]

theorem toOption_ofJson_array {js : List (Json JsonNumber)} (hne : js ≠ []) (hle : js.length ≤ 6) :
    (ofJson (.array js)).toOption =
      (ofJson (.object ((Field.all.map Field.key).zip js))).toOption := by
  refine toOption_eq_of_ok_iff fun f => ?_
  have hlookup (field : Field) :
      (Field.all.zip js).lookup field = js[Field.all.idxOf field]? :=
    lookup_zip field Field.all js hle
  rw [ofJson_array_eq_ok_iff, ofJson_object_eq_ok_iff, ← nodup_known_iff, known_zip]
  simp only [← lookup_known, known_zip, hlookup, ne_eq, hne, not_false_eq_true, hle, true_and]
  exact (and_iff_right (nodup_zip_all js)).symm

/-- Decoding accepts the values of the stored format, gives the formula that they store, and
rejects every other value.  The order of the members of a node does not count, nor do members of
unknown keys and fields that are null, and the fields may also be listed in an array. -/
theorem ofJson_eq_ok_iff_stores :
    (∀ j f, ofJson j = .ok f ↔ Stores j f) ∧ (∀ j, isStored j = true ↔ ∃ f, Stores j f) ∧
      (∀ ms ms', ms.Perm ms' →
        (ofJson (.object ms)).toOption = (ofJson (.object ms')).toOption) ∧
      (∀ ms key j, Field.ofKey? key = none →
        (ofJson (.object ((key, j) :: ms))).toOption = (ofJson (.object ms)).toOption) ∧
      (∀ (ms) (field : Field), field ≠ .kind → field.key ∉ ms.map Prod.fst →
        (ofJson (.object ((field.key, .null) :: ms))).toOption =
          (ofJson (.object ms)).toOption) ∧
      ∀ js, js ≠ [] → js.length ≤ 6 →
        (ofJson (.array js)).toOption =
          (ofJson (.object ((Field.all.map Field.key).zip js))).toOption := by
  refine ⟨ofJson_eq_ok_iff, fun j => ?_, fun ms ms' h => toOption_ofJson_of_perm h,
    fun ms key j h => toOption_ofJson_unknown h j ms,
    fun ms field hfield hnew => toOption_ofJson_null hfield hnew,
    fun js hne hle => toOption_ofJson_array hne hle⟩
  simp only [isStored, ← ofJson_eq_ok_iff]
  cases ofJson j with
  | error e => simp [Except.toOption]
  | ok f => simp [Except.toOption]

/-- Four spellings of one negation. -/
theorem ofJson_eq_ok_iff_stores_not :
    List.Perm [("value", .object [("type", .string "true")]), ("type", .string "not")]
        ([("type", .string "not"), ("value", .object [("type", .string "true")])] :
          List (String × Json JsonNumber)) ∧
      (ofJson (.object [("value", .object [("type", .string "true")]),
        ("type", .string "not")])).toOption = some (unary .not (some (truth true))) ∧
      Field.ofKey? "note" = none ∧
      (ofJson (.object [("note", .bool false), ("type", .string "not"),
        ("value", .object [("type", .string "true")])])).toOption =
          some (unary .not (some (truth true))) ∧
      Field.left ≠ .kind ∧ Field.left.key ∉ ["type", "value"] ∧
      (ofJson (.object [("valueA", .null), ("type", .string "not"),
        ("value", .object [("type", .string "true")])])).toOption =
          some (unary .not (some (truth true))) ∧
      [Json.string "not", .object [("type", .string "true")]] ≠ ([] : List (Json JsonNumber)) ∧
      (ofJson (.array [.string "not", .object [("type", .string "true")]])).toOption =
        some (unary .not (some (truth true))) := by
  obtain ⟨-, -, hperm, hunknown, hnull, harray⟩ := ofJson_eq_ok_iff_stores
  have hnot : (ofJson (.object [("type", .string "not"),
      ("value", .object [("type", .string "true")])])).toOption =
        some (unary .not (some (truth true))) := rfl
  refine ⟨.swap _ _ _, ?_, by decide, ?_, by decide, by decide, ?_, by simp, ?_⟩
  · exact (hperm _ _ (.swap _ _ _)).trans hnot
  · exact (hunknown _ "note" (.bool false) (by decide)).trans hnot
  · exact (hnull _ .left (by decide) (by decide)).trans hnot
  · exact (harray [.string "not", .object [("type", .string "true")]] (by simp)
      (by decide)).trans hnot

end Formula

end SceneFormula
