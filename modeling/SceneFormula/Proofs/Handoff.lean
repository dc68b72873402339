import SceneFormula.Formula.Stored
import SceneFormula.Program.Json
import SceneFormula.Proofs.Json.Sorted

/-!
# Programs that are handed over

A program is handed over as a text, and whoever takes it has the program back: the tag of an
instruction tells what it is, as no operator is called as an instruction that pushes, and a string
in the text is closed before what follows it.  So different programs have different texts, also
with the members of every object in order of their keys.
-/

namespace SceneFormula

/-! ### Reading instructions and programs -/

namespace Instruction

/-- The instruction that a JSON value stands for. -/
def ofJson? : Json JsonNumber → Option Instruction
  | .object members =>
    match Json.find? "type" members, Json.find? "value" members, Json.find? "offset" members with
    | some (.string "number"), some (.number (.integer n)), none => some (number (Int64.ofInt n))
    | some (.string "variable"), some (.string id), none => some (var id)
    | some (.string "local"), some (.string name), some (.number (.integer index)) =>
      some (slot name (UInt8.ofNat index.toNat))
    | some (.string tag), none, none =>
      match BinaryOp.ofTag? tag with
      | some op => some (binary op)
      | none => (UnaryOp.ofTag? tag).map unary
    | _, _, _ => none
  | _ => none

end Instruction

namespace Program

def ofJson? : Json JsonNumber → Option Program
  | .array [.array instructions, fetches] => do
    let code ← instructions.mapM Instruction.ofJson?
    let fetches ← (Fetch.listOfJson fetches).toOption
    return ⟨code, fetches⟩
  | _ => none

def ofText? (text : String) : Option Program :=
  (Json.ofText? Formula.maxOpen text).bind ofJson?

end Program

/-! ### Members as they are written and in order -/

namespace Json

/-- The value as it is, or with the members of every object in order of their keys. -/
def arranged (ordered : Bool) (j : Json Int) : Json Int := if ordered then j.sorted else j

/-- The text of a value in a layout, with its members as they are or in order. -/
def textAs (ordered : Bool) (layout : Layout) (j : Json Int) : String :=
  String.ofList ((j.arranged ordered).write layout [])

theorem arranged_array (ordered : Bool) (js : List (Json Int)) :
    (array js).arranged ordered = array (js.map (arranged ordered)) := by
  cases ordered with
  | false => exact congrArg array (List.map_id js).symm
  | true => exact congrArg array (sortedItems_eq_map js)

theorem Fits.arranged {j : Json Int} (h : j.Fits) (ordered : Bool) : (j.arranged ordered).Fits := by
  cases ordered with
  | false => exact h
  | true => exact h.sorted

theorem depth_arranged_le (ordered : Bool) (j : Json Int) :
    (j.arranged ordered).depth ≤ j.depth := by
  cases ordered with
  | false => exact le_rfl
  | true => exact j.depth_sorted_le

end Json

theorem Json.ofText?_textAs {j : Json Int} (hfits : j.Fits) (hdepth : j.depth ≤ Formula.maxOpen)
    (ordered : Bool) (layout : Layout) :
    ofText? Formula.maxOpen (j.textAs ordered layout) =
      some ((j.arranged ordered).mapNumbers .integer) := by
  have hroom := (j.depth_arranged_le ordered).trans hdepth
  rw [textAs, ofText?_write layout _ (hfits.arranged ordered), if_pos hroom]

/-- A list is had back if each of its items is. -/
theorem mapM_map_eq_pure {m : Type → Type} [Monad m] [LawfulMonad m] {α β : Type}
    {write : α → β} {read : β → m α} (h : ∀ a, read (write a) = pure a) (as : List α) :
    (as.map write).mapM read = pure as := by
  have hread : read ∘ write = fun a => pure (id a) := funext h
  rw [List.mapM_map, hread, List.mapM_pure, List.map_id]

/-! ### Reading what was written -/

namespace Instruction

theorem ofJson?_toJson (ordered : Bool) (i : Instruction) :
    ofJson? ((i.toJson.arranged ordered).mapNumbers .integer) = some i := by
  cases i with
  | number n =>
    have hread : ofJson? (((number n).toJson.arranged ordered).mapNumbers .integer) =
        some (number (Int64.ofInt n.toInt)) := by
      cases ordered <;> rfl
    rw [hread, Int64.ofInt_toInt]
  | var id => cases ordered <;> rfl
  | slot name index =>
    have hread : ofJson? (((slot name index).toJson.arranged ordered).mapNumbers .integer) =
        some (slot name (UInt8.ofNat index.toNat)) := by
      cases ordered <;> rfl
    rw [hread, UInt8.ofNat_toNat]
  | binary op => cases ordered <;> cases op <;> rfl
  | unary op => cases ordered <;> cases op <;> rfl

theorem fits_toJson (i : Instruction) : i.toJson.Fits := by
  cases i with
  | number n =>
    have hle := n.le_toInt
    have hlt := n.toInt_lt
    have hn : (Json.number n.toInt).Fits := ⟨by omega, by omega⟩
    exact ⟨trivial, hn, trivial⟩
  | slot name index =>
    have hlt := index.toNat_lt
    have hindex : (Json.number (index.toNat : Int)).Fits := ⟨by omega, by omega⟩
    exact ⟨trivial, trivial, hindex, trivial⟩
  | var id => exact ⟨trivial, trivial, trivial⟩
  | binary op => exact ⟨trivial, trivial⟩
  | unary op => exact ⟨trivial, trivial⟩

theorem depth_toJson (i : Instruction) : i.toJson.depth = 1 := by
  cases i <;> rfl

end Instruction

namespace Fetch

theorem ofJson_toJson (ordered : Bool) (f : Fetch) :
    ofJson ((f.toJson.arranged ordered).mapNumbers JsonNumber.integer) = .ok f := by
  obtain ⟨name, kind, target⟩ := f
  cases ordered <;> cases kind <;> rfl

theorem fits_toJson (f : Fetch) : f.toJson.Fits :=
  ⟨trivial, ⟨trivial, trivial, trivial⟩, trivial⟩

theorem depth_toJson (f : Fetch) : f.toJson.depth = 2 := rfl

def listToJson (fs : List Fetch) : Json Int := .array (fs.map toJson)

theorem listOfJson_listToJson (ordered : Bool) (fs : List Fetch) :
    listOfJson (((listToJson fs).arranged ordered).mapNumbers JsonNumber.integer) = .ok fs := by
  rw [listToJson, Json.arranged_array, Json.mapNumbers, Json.mapItems_eq_map, listOfJson,
    List.map_map, List.map_map]
  exact mapM_map_eq_pure (ofJson_toJson ordered) fs

theorem fits_listToJson (fs : List Fetch) : (listToJson fs).Fits :=
  Json.fitsItems_iff.mpr (List.forall_mem_map.mpr fun f _ => f.fits_toJson)

theorem depth_listToJson_le (fs : List Fetch) : (listToJson fs).depth ≤ 3 :=
  Nat.succ_le_succ
    (Json.depthItems_le_iff.mpr (List.forall_mem_map.mpr fun f _ => f.depth_toJson.le))

end Fetch

namespace Program

theorem toJson_eq (p : Program) :
    p.toJson = .array [.array (p.code.map Instruction.toJson), Fetch.listToJson p.fetches] := rfl

theorem ofJson?_toJson (ordered : Bool) (p : Program) :
    ofJson? ((p.toJson.arranged ordered).mapNumbers .integer) = some p := by
  have hcode : ((p.code.map Instruction.toJson).map (Json.arranged ordered)).map
      (Json.mapNumbers JsonNumber.integer) =
        p.code.map fun i => (i.toJson.arranged ordered).mapNumbers .integer := by
    rw [List.map_map, List.map_map]
    rfl
  have hread := mapM_map_eq_pure (Instruction.ofJson?_toJson ordered) p.code
  rw [toJson_eq, Json.arranged_array, List.map_cons, List.map_singleton, Json.arranged_array]
  simp only [Json.mapNumbers, Json.mapItems, Json.mapItems_eq_map, hcode, ofJson?, hread,
    Fetch.listOfJson_listToJson]
  rfl

theorem fits_toJson (p : Program) : p.toJson.Fits := by
  have hcode : (Json.array (p.code.map Instruction.toJson)).Fits :=
    Json.fitsItems_iff.mpr (List.forall_mem_map.mpr fun i _ => i.fits_toJson)
  exact ⟨hcode, Fetch.fits_listToJson p.fetches, trivial⟩

theorem depth_toJson_le (p : Program) : p.toJson.depth ≤ 4 := by
  have hcode : (Json.array (p.code.map Instruction.toJson)).depth ≤ 2 :=
    Nat.succ_le_succ
      (Json.depthItems_le_iff.mpr (List.forall_mem_map.mpr fun i _ => i.depth_toJson.le))
  have hfetches := Fetch.depth_listToJson_le p.fetches
  rw [toJson_eq]
  simp only [Json.depth, Json.depthItems] at hcode hfetches ⊢
  omega

theorem ofText?_textAs (ordered : Bool) (layout : Layout) (p : Program) :
    ofText? (p.toJson.textAs ordered layout) = some p := by
  have hdepth : p.toJson.depth ≤ Formula.maxOpen := p.depth_toJson_le.trans (by decide)
  rw [ofText?, Json.ofText?_textAs p.fits_toJson hdepth, Option.bind_some, ofJson?_toJson]

/-- Programs that are handed over as one text are one program, and fetches can be decoded from
theirs: in either layout, and in either order of members. -/
theorem texts_unambiguous (ordered : Bool) (layout : Layout) :
    (∀ p q : Program,
        p.toJson.textAs ordered layout = q.toJson.textAs ordered layout ↔ p = q) ∧
      ∀ fs : List Fetch, ∃ j,
        Json.ofText? Formula.maxOpen ((Fetch.listToJson fs).textAs ordered layout) = some j ∧
          Fetch.listOfJson j = .ok fs := by
  refine ⟨fun p q => ⟨fun h => ?_, fun h => by rw [h]⟩, fun fs => ?_⟩
  · have hp := ofText?_textAs ordered layout p
    rw [h, ofText?_textAs] at hp
    exact (Option.some.inj hp).symm
  · have hdepth : (Fetch.listToJson fs).depth ≤ Formula.maxOpen :=
      (Fetch.depth_listToJson_le fs).trans (by decide)
    exact ⟨_, Json.ofText?_textAs (Fetch.fits_listToJson fs) hdepth ordered layout,
      Fetch.listOfJson_listToJson ordered fs⟩

end Program

end SceneFormula
