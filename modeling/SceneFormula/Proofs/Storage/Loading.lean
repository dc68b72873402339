import SceneFormula.Proofs.Json.Sorted
import SceneFormula.Proofs.Storage.Decoding

/-!
# Loading a text and decoding its value

A text is decoded in the order in which its members stand, a value that was read before in the order
of its keys.  Where no object repeats a key both give the same formula, or none.
-/

namespace SceneFormula

open Format (Holds)

theorem eq_ok_iff_of_toOption_eq {ε α : Type} {a b : Except ε α} (h : a.toOption = b.toOption)
    (x : α) : a = .ok x ↔ b = .ok x := by
  cases a <;> cases b <;> simp_all [Except.toOption]

namespace Json

theorem find?_map_sorted (key : String) (ms : List (String × Json JsonNumber)) :
    find? key (ms.map fun m => (m.1, m.2.sorted)) = (find? key ms).map sorted := by
  induction ms with
  | nil => rfl
  | cons m ms ih =>
    rw [List.map_cons, find?_cons, find?_cons, ih]
    split <;> rfl

theorem eq_null_of_sorted {ν : Type} {j : Json ν} (h : j.sorted = null) : j = null := by
  cases j with
  | null => rfl
  | _ => cases h

theorem DistinctKeys.eq_of_sorted {ν : Type} {j : Json ν} (hj : j.DistinctKeys) {key : String}
    (h : j.sorted = .object [(key, .null)]) : j = .object [(key, .null)] := by
  cases hj with
  | @object ms hkeys _ =>
    obtain ⟨ns, hns, hperm⟩ := exists_sorted_eq_object hkeys
    rw [h] at hns
    cases hns
    obtain ⟨m, rfl, hm⟩ := List.map_eq_singleton_iff.mp (List.singleton_perm.mp hperm).symm
    obtain ⟨rfl, hnull⟩ := Prod.mk.inj hm
    rw [← eq_null_of_sorted hnull]
  | _ => cases h

end Json

namespace Formula

/-- A field takes a value just if it takes the value with its members in order. -/
theorem holds_sorted_iff {field : Field} {slot : Option (Json JsonNumber)}
    {x : Option field.Content}
    (h : ∀ j ∈ slot, j.DistinctKeys ∧ ∀ f, ofJson j.sorted = .ok f ↔ ofJson j = .ok f) :
    Holds Decodes field (slot.map Json.sorted) x ↔ Holds Decodes field slot x := by
  cases slot with
  | none => rfl
  | some j =>
    obtain ⟨hkeys, hj⟩ := h j rfl
    rw [Option.map_some]
    cases j with
    | array items =>
      constructor
      · intro hx
        cases hx with
        | operand hf => exact .operand ((hj _).mp hf)
        | left hf => exact .left ((hj _).mp hf)
        | right hf => exact .right ((hj _).mp hf)
      · intro hx
        cases hx with
        | operand hf => exact .operand ((hj _).mpr hf)
        | left hf => exact .left ((hj _).mpr hf)
        | right hf => exact .right ((hj _).mpr hf)
    | object ms =>
      constructor
      · intro hx
        generalize hi : (Json.object ms).sorted = i at hx
        cases hx with
        | operand hf => exact .operand ((hj _).mp (hi ▸ hf))
        | left hf => exact .left ((hj _).mp (hi ▸ hf))
        | right hf => exact .right ((hj _).mp (hi ▸ hf))
        | propertyObject p =>
          -- With its one key repeated, an object would name a property only once it is sorted.
          rw [hkeys.eq_of_sorted hi]
          exact .propertyObject p
        | _ => cases hi
      · intro hx
        cases hx with
        | operand hf => exact .operand ((hj _).mpr hf)
        | left hf => exact .left ((hj _).mpr hf)
        | right hf => exact .right ((hj _).mpr hf)
        | propertyObject p => exact .propertyObject p
    | _ => rfl

/-- Where no object repeats a key, a value stores a formula just if it does so with its members in
order. -/
theorem ofJson_sorted_iff {j : Json JsonNumber} (hj : j.DistinctKeys) (f : Formula) :
    ofJson j.sorted = .ok f ↔ ofJson j = .ok f := by
  induction hj generalizing f with
  | @array js hjs ih =>
    have hslots (field : Field) (x : Option field.Content) :
        Holds Decodes field (js.map Json.sorted)[Field.all.idxOf field]? x ↔
          Holds Decodes field js[Field.all.idxOf field]? x := by
      rw [List.getElem?_map]
      refine holds_sorted_iff fun j hj => ?_
      have hmem : j ∈ js := List.mem_of_getElem? hj
      exact ⟨hjs j hmem, ih j hmem⟩
    rw [Json.sorted, Json.sortedItems_eq_map, ofJson_array_eq_ok_iff, ofJson_array_eq_ok_iff,
      List.length_map, ne_eq, List.map_eq_nil_iff]
    simp only [hslots, ne_eq]
  | @object ms hkeys hms ih =>
    obtain ⟨ns, hns, hperm⟩ := Json.exists_sorted_eq_object hkeys
    have hslots (field : Field) (x : Option field.Content) :
        Holds Decodes field (Json.find? field.key (ms.map fun m => (m.1, m.2.sorted))) x ↔
          Holds Decodes field (Json.find? field.key ms) x := by
      rw [Json.find?_map_sorted]
      refine holds_sorted_iff fun j hj => ?_
      obtain ⟨m, hm, rfl⟩ := Option.map_eq_some_iff.mp hj
      have hmem : m ∈ ms := List.mem_of_find?_eq_some hm
      exact ⟨hms m hmem, ih m hmem⟩
    have hcount (field : Field) :
        ((ms.map fun m => (m.1, m.2.sorted)).map Prod.fst).count field.key ≤ 1 ↔
          (ms.map Prod.fst).count field.key ≤ 1 := by
      rw [List.map_map]
      rfl
    rw [hns, eq_ok_iff_of_toOption_eq (toOption_ofJson_of_perm hperm)]
    exact eq_ok_iff_of_toOption_eq (toOption_ofJson_object_congr hcount fun _ => hslots) f
  | _ => rfl

theorem toOption_ofStored {text : String} {j : Json JsonNumber}
    (h : Json.ofText? maxOpen text = some j) : (ofStored text).toOption = (ofJson j).toOption := by
  rw [Json.ofText?] at h
  rw [ofStored]
  cases hread : Reading.read text.toList with
  | mk r after =>
    simp only [hread] at h ⊢
    split at h
    next hlast =>
      rw [← toOption_ofReading r h]
      cases ofReading maxOpen r with
      | error e => rfl
      | ok f => simp [bind, Except.bind, hlast]
    next => cases h

theorem ofStored_of_ofText? {text : String} {j : Json JsonNumber} {f : Formula}
    (h : Json.ofText? maxOpen text = some j) (hf : ofJson j = .ok f) : ofStored text = .ok f :=
  (eq_ok_iff_of_toOption_eq (toOption_ofStored h) f).mpr hf

/-- A formula is also had back from a text with the members in order of their keys and with blanks
at its end. -/
theorem ofStored_write_sorted {f : Formula} (h : f.height ≤ 127) (layout : Layout)
    {tail : List Char} (ht : ∀ c ∈ tail, Reading.isBlank c = true) :
    ofStored (String.ofList (f.toJson.sorted.write layout [] ++ tail)) = .ok f := by
  have hdepth : f.toJson.sorted.depth ≤ maxOpen :=
    f.toJson.depth_sorted_le.trans ((depth_toJson f).trans_le h)
  have htext := Json.ofText?_write_append layout f.toJson.sorted (fits_toJson f).sorted maxOpen ht
  rw [if_pos hdepth, ← Json.sorted_mapNumbers] at htext
  exact ofStored_of_ofText? htext (ofJson_sorted_toJson f)

/-- Where a text spells a value in which no object repeats a key, loading the text and decoding the
value give the same formula, or both give none; and it makes no difference whether the value has
its members in the order of the text or in that of their keys. -/
theorem ofStored_eq_ok_iff_ofJson {text : String} {j : Json JsonNumber}
    (hj : Json.ofText? maxOpen text = some j) (hkeys : j.DistinctKeys) :
    ∀ i ∈ [j, j.sorted],
      (∀ f, ofStored text = .ok f ↔ ofJson i = .ok f) ∧
        ((∃ f, ofStored text = .ok f) ↔ isStored i = true) := by
  have hstored (f : Formula) : ofStored text = .ok f ↔ ofJson j = .ok f :=
    eq_ok_iff_of_toOption_eq (toOption_ofStored hj) f
  intro i hi
  have hsame (f : Formula) : ofStored text = .ok f ↔ ofJson i = .ok f := by
    rcases List.mem_pair.mp hi with rfl | rfl
    · exact hstored f
    · rw [hstored, ofJson_sorted_iff hkeys]
  refine ⟨hsame, ?_⟩
  simp only [hsame, isStored]
  cases ofJson i <;> simp [Except.toOption]

/-- The text of a negation whose operand stands before its kind, with a member that nothing
reads. -/
theorem ofStored_eq_ok_iff_ofJson_not :
    let i : Json Int := .object [("value", .object [("type", .string "true")]),
      ("note", .array []), ("type", .string "not")]
    (Json.ofText? maxOpen i.pretty = some (i.mapNumbers .integer) ∧
        (i.mapNumbers JsonNumber.integer).DistinctKeys) ∧
      ofStored i.pretty = .ok (unary .not (some (truth true))) := by
  intro i
  have hj : Json.ofText? maxOpen i.pretty = some (i.mapNumbers .integer) := by
    have hfits : i.Fits := ⟨⟨trivial, trivial⟩, trivial, trivial, trivial⟩
    exact (Json.ofText?_write (.lines 0) i hfits maxOpen).trans (if_pos (by decide))
  have hkeys : (i.mapNumbers JsonNumber.integer).DistinctKeys := by
    refine .object (by decide) (List.forall_mem_cons.mpr ⟨?_, List.forall_mem_cons.mpr ⟨?_, ?_⟩⟩)
    · exact .object (by decide) (List.forall_mem_singleton.mpr (.string "true"))
    · exact .array (List.forall_mem_nil _)
    · exact List.forall_mem_singleton.mpr (.string "not")
  refine ⟨⟨hj, hkeys⟩, ?_⟩
  exact ((ofStored_eq_ok_iff_ofJson hj hkeys _ (List.mem_cons_self)).1 _).mpr rfl

end Formula

end SceneFormula
