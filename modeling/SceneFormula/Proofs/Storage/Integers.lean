import SceneFormula.Proofs.Storage.Loading

/-!
# Stored integers

An integer that a node of kind `number` holds is had back just if it is a word.  Beyond the words
nothing reports it: up to the greatest unsigned word it is read as the greatest word, and from
there on as whatever word its floating-point value is converted to.
-/

namespace SceneFormula

namespace Json

def numberNode {ν : Type} (x : ν) : Json ν :=
  .object [("type", .string "number"), ("value", .number x)]

/-- The text of the node that holds the integer `k`. -/
def numberText (layout : Layout) (k : Int) : String :=
  String.ofList ((numberNode k).write layout [])

end Json

theorem Numeral.value?_ofInt_of_far {k : Int}
    (h : k < -9223372036854775808 ∨ 18446744073709551615 < k) :
    (ofInt k).value? = (ofInt k).decimal?.map .decimal := by
  have hmag : ¬ k.natAbs ≤ maxMagnitude (decide (k < 0)) := by
    unfold maxMagnitude
    split <;> rename_i hk <;> simp only [decide_eq_true_eq] at hk <;> omega
  simp only [value?, ofInt, Nat.ofDigitChars_ten_toDigits, decide_eq_false hmag, Bool.and_false]
  rfl

theorem JsonNumber.toInt64?_integer_of_lt {k : Int} (h : 9223372036854775807 < k) :
    toInt64? (.integer k) = some Int64.maxValue := by
  have hmin : Int64.minValue.toInt ≤ k := Int.le_trans (by decide) (Int.le_of_lt h)
  have hmax : ¬ k ≤ Int64.maxValue.toInt := Int.not_le.mpr h
  rw [toInt64?, Int64.ofIntClamp, dif_pos hmin, dif_neg hmax]

theorem Fields.setReading_number {room : Nat} {l : Numeral} {x : JsonNumber} (h : l.value? = some x)
    (fs : Fields) (asNode : Unit → Except DecodeFault Formula) :
    fs.setReading room .value (.number l) asNode =
      .ok { fs with value := some (.number x) } := by
  have hjson : (Reading.number l).json? room = some (.number x) := by
    rw [Reading.json?, h]
    rfl
  simp only [setReading, hjson]
  rfl

namespace Formula

open Json (numberNode numberText)

theorem ofJson_numberNode (x : JsonNumber) :
    ofJson (numberNode x) =
      x.toInt64?.elim (.error (.rejected NodeFault.numberNotInteger.toError))
        fun n => .ok (number n) := by
  have hfields : ofJson (numberNode x) =
      Fields.formula { kind := some "number", value := some (.number x) } := rfl
  rw [hfields]
  exact Fields.formula_of_kind_number rfl rfl

theorem ofReading_numberNode (room : Nat) (l : Numeral) :
    ofReading (room + 1)
        (.object [(some "type", .string (some "number")), (some "value", .number l)] .closed) =
      l.value?.elim (.error .malformed) fun x => ofJson (numberNode x) := by
  have hkind : fieldsOfKeyed room
      [(some "type", .string (some "number")), (some "value", .number l)] [] {} =
        fieldsOfKeyed room [(some "value", .number l)] [.kind] { kind := some "number" } :=
    fieldsOfKeyed_cons .kind _ (by decide) _ {}
  have hvalue : fieldsOfKeyed room [(some "value", .number l)] [.kind]
      { kind := some "number" } =
        Fields.setReading { kind := some "number" } room .value (.number l)
          (fun _ => ofReading room (.number l)) >>= fieldsOfKeyed room [] [.value, .kind] :=
    fieldsOfKeyed_cons .value _ (by decide) [] _
  rw [ofReading, hkind, hvalue]
  cases hl : l.value? with
  | none =>
    have hjson : (Reading.number l).json? room = none := by
      rw [Reading.json?, hl]
      rfl
    rw [Fields.setReading_value_of_none hjson]
    rfl
  | some x =>
    rw [Fields.setReading_number hl]
    rfl

/-- The text of such a node is decoded as the number that its digits spell. -/
theorem ofStored_numberText (layout : Layout) (k : Int) :
    ofStored (numberText layout k) =
      (Numeral.ofInt k).value?.elim (.error .malformed) fun x => ofJson (numberNode x) := by
  rw [numberText, ofStored_write]
  exact ofReading_numberNode 126 (.ofInt k)

theorem ofText?_numberText (layout : Layout) (k : Int) :
    Json.ofText? maxOpen (numberText layout k) = (Numeral.ofInt k).value?.map numberNode := by
  have hjson : (numberNode k).reading.json? maxOpen =
      (Numeral.ofInt k).value?.map numberNode := by
    simp only [numberNode, Json.reading, Json.readingMembers, maxOpen, Reading.json?,
      Reading.jsonMembers?]
    cases (Numeral.ofInt k).value? <;> rfl
  rw [Json.ofText?, numberText, String.toList_ofList, Reading.read_write]
  exact hjson

/-- The integer of a stored node is had back if it is a signed word of 64 bits.  A greater one is
not refused: an unsigned word is taken for the greatest signed one, and what 64 bits do not hold is
taken for a floating-point number and converted.  It makes no difference whether the text is decoded
or its value. -/
theorem ofStored_integer (layout : Layout) (k : Int) :
    (-9223372036854775808 ≤ k → k ≤ 9223372036854775807 →
        ∃ n : Int64, n.toInt = k ∧ ofStored (numberText layout k) = .ok (number n)) ∧
      (9223372036854775807 < k → k ≤ 18446744073709551615 →
        ofStored (numberText layout k) = .ok (number Int64.maxValue)) ∧
      (k < -9223372036854775808 ∨ 18446744073709551615 < k →
        ofStored (numberText layout k) =
          (Numeral.ofInt k).decimal?.elim (.error .malformed) fun x =>
            if x.isFinite && x.floor == x then .ok (number x.toInt64)
            else .error (.rejected NodeFault.numberNotInteger.toError)) ∧
      ∀ j, Json.ofText? maxOpen (numberText layout k) = some j →
        ofJson j = ofStored (numberText layout k) := by
  refine ⟨fun hlo hhi => ?_, fun hlo hhi => ?_, fun hfar => ?_, fun j hj => ?_⟩
  · have hvalue := Numeral.value?_ofInt hlo (by omega)
    refine ⟨Int64.ofIntClamp k, Int64.toInt_ofIntClamp hlo hhi, ?_⟩
    rw [ofStored_numberText, hvalue, Option.elim_some, ofJson_numberNode]
    rfl
  · have hvalue := Numeral.value?_ofInt (by omega) hhi
    rw [ofStored_numberText, hvalue, Option.elim_some, ofJson_numberNode,
      JsonNumber.toInt64?_integer_of_lt hlo]
    rfl
  · rw [ofStored_numberText, Numeral.value?_ofInt_of_far hfar]
    cases (Numeral.ofInt k).decimal? with
    | none => rfl
    | some x =>
      rw [Option.map_some, Option.elim_some, Option.elim_some, ofJson_numberNode,
        JsonNumber.toInt64?]
      split <;> rfl
  · rw [ofText?_numberText] at hj
    obtain ⟨x, hx, rfl⟩ := Option.map_eq_some_iff.mp hj
    rw [ofStored_numberText, hx, Option.elim_some]

/-- The bounds of the signed and of the unsigned words. -/
theorem ofStored_integer_bounds :
    (∃ n : Int64, n.toInt = -9223372036854775808 ∧
        ofStored (numberText .compact (-9223372036854775808)) = .ok (number n)) ∧
      ofStored (numberText .compact 18446744073709551615) = .ok (number Int64.maxValue) ∧
      ofJson (numberNode (.integer 18446744073709551615)) =
        ofStored (numberText .compact 18446744073709551615) ∧
      ofStored (numberText .compact 18446744073709551616) =
          (Numeral.ofInt 18446744073709551616).decimal?.elim (.error .malformed) fun x =>
            if x.isFinite && x.floor == x then .ok (number x.toInt64)
            else .error (.rejected NodeFault.numberNotInteger.toError) := by
  have hvalue : Json.ofText? maxOpen (numberText .compact 18446744073709551615) =
      some (numberNode (.integer 18446744073709551615)) := by
    rw [ofText?_numberText, Numeral.value?_ofInt (by decide) (by decide)]
    rfl
  exact ⟨(ofStored_integer .compact _).1 (by decide) (by decide),
    (ofStored_integer .compact _).2.1 (by decide) (by decide),
    (ofStored_integer .compact _).2.2.2 _ hvalue,
    (ofStored_integer .compact _).2.2.1 (by decide)⟩

/-- The first integer beyond the words is taken for the last word. -/
theorem ofStored_first_beyond :
    numberText .compact 9223372036854775808 =
        "\x7b\"type\":\"number\",\"value\":9223372036854775808\x7d" ∧
      ofStored (numberText .compact 9223372036854775808) = .ok (number 9223372036854775807) ∧
      ¬ ∀ k : Int,
        (-9223372036854775808 ≤ k ∧ k ≤ 9223372036854775807 →
          ∃ n : Int64, n.toInt = k ∧ ofStored (numberText .compact k) = .ok (number n)) ∧
        (¬ (-9223372036854775808 ≤ k ∧ k ≤ 9223372036854775807) →
          ∃ e, ofStored (numberText .compact k) = .error e) := by
  have hread : ofStored (numberText .compact 9223372036854775808) =
      .ok (number 9223372036854775807) := by
    have hvalue : (Numeral.ofInt 9223372036854775808).value? =
        some (.integer 9223372036854775808) := Numeral.value?_ofInt (by decide) (by decide)
    rw [ofStored_numberText, hvalue, Option.elim_some, ofJson_numberNode]
    decide
  refine ⟨by decide, hread, fun hall => ?_⟩
  obtain ⟨e, he⟩ := (hall 9223372036854775808).2 (by decide)
  cases hread.symm.trans he

end Formula

end SceneFormula
