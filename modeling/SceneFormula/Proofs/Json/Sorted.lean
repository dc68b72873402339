import SceneFormula.Proofs.Json.Text

/-!
# Members in order of their keys

Where no object repeats a key, sorting the members moves them and sorts what they hold, and nothing
else.  In any case every member that is left was one before, so that a sorted value opens no more
arrays and objects than the value itself.
-/

namespace SceneFormula.Json

variable {ν μ : Type}

/-! ### Induction over the values that stand in a value -/

section Induction

variable {motive : Json ν → Prop} (null : motive null) (bool : ∀ b, motive (bool b))
  (number : ∀ x, motive (number x)) (string : ∀ s, motive (string s))
  (array : ∀ items, (∀ j ∈ items, motive j) → motive (array items))
  (object : ∀ ms, (∀ m ∈ ms, motive m.2) → motive (object ms))

include null bool number string array object in
/-- A property of values holds of all of them if it passes from what stands in an array or in an
object to the array or the object. -/
@[elab_as_elim]
theorem induction_values (j : Json ν) : motive j :=
  @Json.rec ν motive (fun js => ∀ j ∈ js, motive j) (fun ms => ∀ m ∈ ms, motive m.2)
    (fun m => motive m.2) null bool number string array object
    (List.forall_mem_nil motive) (fun _ _ hj hjs => List.forall_mem_cons.mpr ⟨hj, hjs⟩)
    (List.forall_mem_nil fun (m : String × Json ν) => motive m.2)
    (fun _ _ hm hms => List.forall_mem_cons.mpr ⟨hm, hms⟩) (fun _ _ hj => hj) j

end Induction

/-! ### Items and members -/

theorem mapMembers_eq_map (f : ν → μ) (ms : List (String × Json ν)) :
    mapMembers f ms = ms.map fun m => (m.1, m.2.mapNumbers f) := by
  induction ms with
  | nil => rfl
  | cons m ms ih => rw [mapMembers, ih, List.map_cons]

theorem mapItems_eq_map (f : ν → μ) (js : List (Json ν)) :
    mapItems f js = js.map (mapNumbers f) := by
  induction js with
  | nil => rfl
  | cons j js ih => rw [mapItems, ih, List.map_cons]

theorem sortedItems_eq_map (js : List (Json ν)) : sortedItems js = js.map sorted := by
  induction js with
  | nil => rfl
  | cons j js ih => rw [sortedItems, ih, List.map_cons]

theorem depthItems_le_iff {js : List (Json ν)} {n : Nat} :
    depthItems js ≤ n ↔ ∀ j ∈ js, j.depth ≤ n := by
  induction js with
  | nil => simp [depthItems]
  | cons j js ih => rw [depthItems, max_le_iff, ih, List.forall_mem_cons]

theorem depthMembers_le_iff {ms : List (String × Json ν)} {n : Nat} :
    depthMembers ms ≤ n ↔ ∀ m ∈ ms, m.2.depth ≤ n := by
  induction ms with
  | nil => simp [depthMembers]
  | cons m ms ih => rw [depthMembers, max_le_iff, ih, List.forall_mem_cons]

theorem fitsItems_iff {js : List (Json Int)} : FitsItems js ↔ ∀ j ∈ js, j.Fits := by
  induction js with
  | nil => simp [FitsItems]
  | cons j js ih => rw [FitsItems, ih, List.forall_mem_cons]

theorem fitsMembers_iff {ms : List (String × Json Int)} : FitsMembers ms ↔ ∀ m ∈ ms, m.2.Fits := by
  induction ms with
  | nil => simp [FitsMembers]
  | cons m ms ih => rw [FitsMembers, ih, List.forall_mem_cons]

/-! ### Sorting -/

theorem eq_or_mem_of_mem_insertMember {key : String} {j : Json ν} {m : String × Json ν}
    {ms : List (String × Json ν)} (h : m ∈ insertMember key j ms) : m = (key, j) ∨ m ∈ ms := by
  induction ms with
  | nil => exact .inl (List.mem_singleton.mp h)
  | cons n ms ih =>
    rw [insertMember] at h
    split at h
    · exact List.mem_cons.mp h
    · split at h
      · exact (List.mem_cons.mp h).imp_right (List.mem_cons_of_mem n)
      · rcases List.mem_cons.mp h with rfl | h
        · exact .inr List.mem_cons_self
        · exact (ih h).imp_right (List.mem_cons_of_mem n)

theorem exists_of_mem_sortedMembers {m : String × Json ν} {ms placed : List (String × Json ν)}
    (h : m ∈ sortedMembers ms placed) : (∃ n ∈ ms, m = (n.1, n.2.sorted)) ∨ m ∈ placed := by
  induction ms generalizing placed with
  | nil => exact .inr h
  | cons n ms ih =>
    rcases ih h with ⟨n', hn', rfl⟩ | hplaced
    · exact .inl ⟨n', List.mem_cons_of_mem n hn', rfl⟩
    · rcases eq_or_mem_of_mem_insertMember hplaced with rfl | hplaced
      · exact .inl ⟨n, List.mem_cons_self, rfl⟩
      · exact .inr hplaced

/-- What holds of all members when they are sorted holds of the members of the sorted object. -/
theorem forall_mem_sortedMembers {p : Json ν → Prop} {ms : List (String × Json ν)}
    (h : ∀ m ∈ ms, p m.2.sorted) : ∀ m ∈ sortedMembers ms [], p m.2 := by
  intro m hm
  rcases exists_of_mem_sortedMembers hm with ⟨n, hn, rfl⟩ | hm
  · exact h n hn
  · cases hm

theorem depth_sorted_le (j : Json ν) : j.sorted.depth ≤ j.depth := by
  induction j using induction_values with
  | array items ih =>
    rw [sorted, sortedItems_eq_map]
    refine Nat.succ_le_succ (depthItems_le_iff.mpr (List.forall_mem_map.mpr fun j hj => ?_))
    exact (ih j hj).trans (depthItems_le_iff.mp le_rfl j hj)
  | object ms ih =>
    rw [sorted]
    refine Nat.succ_le_succ (depthMembers_le_iff.mpr ?_)
    refine forall_mem_sortedMembers (p := fun j => j.depth ≤ depthMembers ms) fun m hm => ?_
    exact (ih m hm).trans (depthMembers_le_iff.mp le_rfl m hm)
  | _ => exact le_rfl

theorem Fits.sorted {j : Json Int} (h : j.Fits) : j.sorted.Fits := by
  induction j using induction_values with
  | array items ih =>
    rw [Json.sorted, sortedItems_eq_map]
    exact fitsItems_iff.mpr
      (List.forall_mem_map.mpr fun j hj => ih j hj (fitsItems_iff.mp h j hj))
  | object ms ih =>
    exact fitsMembers_iff.mpr
      (forall_mem_sortedMembers fun m hm => ih m hm (fitsMembers_iff.mp h m hm))
  | _ => exact h

theorem map_insertMember (g : Json ν → Json μ) (key : String) (j : Json ν)
    (ms : List (String × Json ν)) :
    (insertMember key j ms).map (fun m => (m.1, g m.2)) =
      insertMember key (g j) (ms.map fun m => (m.1, g m.2)) := by
  induction ms with
  | nil => rfl
  | cons m ms ih =>
    simp only [List.map_cons, insertMember]
    split
    · rfl
    · split
      · rfl
      · rw [List.map_cons, ih]

theorem map_sortedMembers {f : ν → μ} {ms : List (String × Json ν)}
    (h : ∀ m ∈ ms, (m.2.mapNumbers f).sorted = m.2.sorted.mapNumbers f)
    (placed : List (String × Json ν)) :
    (sortedMembers ms placed).map (fun m => (m.1, m.2.mapNumbers f)) =
      sortedMembers (ms.map fun m => (m.1, m.2.mapNumbers f))
        (placed.map fun m => (m.1, m.2.mapNumbers f)) := by
  induction ms generalizing placed with
  | nil => rfl
  | cons m ms ih =>
    obtain ⟨hm, hms⟩ := List.forall_mem_cons.mp h
    rw [sortedMembers, ih hms, map_insertMember, ← hm, List.map_cons, sortedMembers]

theorem sorted_mapNumbers (f : ν → μ) (j : Json ν) :
    (j.mapNumbers f).sorted = j.sorted.mapNumbers f := by
  induction j using induction_values with
  | array items ih =>
    simp only [mapNumbers, sorted, mapItems_eq_map, sortedItems_eq_map, List.map_map]
    exact congrArg array (List.map_congr_left ih)
  | object ms ih =>
    simp only [mapNumbers, sorted, mapMembers_eq_map]
    exact congrArg object (map_sortedMembers ih []).symm
  | _ => rfl

/-! ### Values without repeated keys -/

/-- No object in the value repeats a key. -/
inductive DistinctKeys : Json ν → Prop
  | null : DistinctKeys null
  | bool (b : Bool) : DistinctKeys (bool b)
  | number (x : ν) : DistinctKeys (number x)
  | string (s : String) : DistinctKeys (string s)
  | array {items : List (Json ν)} (h : ∀ j ∈ items, DistinctKeys j) : DistinctKeys (array items)
  | object {ms : List (String × Json ν)} (hkeys : (ms.map Prod.fst).Nodup)
      (h : ∀ m ∈ ms, DistinctKeys m.2) : DistinctKeys (object ms)

theorem insertMember_perm {key : String} {j : Json ν} {ms : List (String × Json ν)}
    (h : key ∉ ms.map Prod.fst) : (insertMember key j ms).Perm ((key, j) :: ms) := by
  induction ms with
  | nil => exact .refl _
  | cons m ms ih =>
    rw [List.map_cons, List.mem_cons, not_or] at h
    rw [insertMember]
    split
    · exact .refl _
    · rw [if_neg h.1]
      exact ((ih h.2).cons m).trans (.swap (key, j) m ms)

theorem sortedMembers_perm {ms placed : List (String × Json ν)}
    (h : ((ms ++ placed).map Prod.fst).Nodup) :
    (sortedMembers ms placed).Perm ((ms.map fun m => (m.1, m.2.sorted)) ++ placed) := by
  induction ms generalizing placed with
  | nil => exact .refl _
  | cons m ms ih =>
    obtain ⟨key, j⟩ := m
    rw [List.cons_append, List.map_cons, List.nodup_cons, List.map_append, List.mem_append,
      not_or] at h
    obtain ⟨⟨hms, hplaced⟩, hnodup⟩ := h
    have hinsert := insertMember_perm (j := j.sorted) hplaced
    -- The key that is placed now stays apart from the placed ones and from those still to come.
    have hkeys : ((ms ++ insertMember key j.sorted placed).map Prod.fst).Nodup := by
      have hmiddle := ((hinsert.append_left ms).trans List.perm_middle).map Prod.fst
      rw [hmiddle.nodup_iff, List.map_cons, List.nodup_cons, List.map_append, List.mem_append]
      exact ⟨not_or.mpr ⟨hms, hplaced⟩, hnodup⟩
    exact (ih hkeys).trans ((hinsert.append_left _).trans List.perm_middle)

/-- Sorting moves the members of an object and sorts what they hold. -/
theorem exists_sorted_eq_object {ms : List (String × Json ν)} (h : (ms.map Prod.fst).Nodup) :
    ∃ ns, (object ms).sorted = object ns ∧ ns.Perm (ms.map fun m => (m.1, m.2.sorted)) := by
  have hkeys : ((ms ++ []).map Prod.fst).Nodup := by rwa [List.append_nil]
  have hperm := sortedMembers_perm hkeys
  rw [List.append_nil] at hperm
  exact ⟨_, rfl, hperm⟩

end SceneFormula.Json
