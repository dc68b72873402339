import SceneFormula.Program.Grouping
import Mathlib.Data.List.Induction
import Mathlib.Data.List.Nodup

/-!
# Grouped fetches

Grouping moves fetches without losing or repeating any.  The groups come in the order in which
their actors first appear, each holds the fetches from its actor in their own order, and so a list
that is grouped already stays as it is.  The same list comes of filling buckets that are found by
a map from actors to places.
-/

namespace SceneFormula

theorem FetchGroup.insert_perm (f : Fetch) (gs : List FetchGroup) :
    ((insert f gs).flatMap fetches).Perm (gs.flatMap fetches ++ [f]) := by
  induction gs with
  | nil => exact List.Perm.refl _
  | cons g gs ih =>
    rw [insert]
    split
    · -- The fetch joins the first group, and the later groups stand behind it.
      simp only [List.flatMap_cons, List.append_assoc]
      exact List.Perm.append_left _ List.perm_append_comm
    · simp only [List.flatMap_cons, List.append_assoc]
      exact List.Perm.append_left _ ih

theorem FetchGroup.foldl_insert_perm (fs : List Fetch) (gs : List FetchGroup) :
    ((fs.foldl (fun gs f => insert f gs) gs).flatMap fetches).Perm (gs.flatMap fetches ++ fs) := by
  induction fs generalizing gs with
  | nil => rw [List.foldl_nil, List.append_nil]
  | cons f fs ih =>
    rw [List.foldl_cons]
    have hrest := ih (insert f gs)
    have hfirst := (insert_perm f gs).append_right fs
    rw [List.append_assoc] at hfirst
    exact hrest.trans hfirst

theorem groupFetches_perm (fs : List Fetch) : (groupFetches fs).Perm fs :=
  FetchGroup.foldl_insert_perm fs []

/-! ## Actors in the order of their first fetch -/

/-- The actors that are read, in the order in which they first appear. -/
def targets (fs : List Fetch) : List String := (fs.map fun f => f.record.target).eraseDups

/-- The fetches from the actor `t`, in order. -/
def fetchesFrom (fs : List Fetch) (t : String) : List Fetch :=
  fs.filter fun f => f.record.target = t

@[simp] theorem targets_nil : targets [] = [] := rfl

@[simp] theorem targets_singleton (f : Fetch) : targets [f] = [f.record.target] := by
  simp [targets, List.eraseDups_cons]

@[simp] theorem fetchesFrom_append (fs gs : List Fetch) (t : String) :
    fetchesFrom (fs ++ gs) t = fetchesFrom fs t ++ fetchesFrom gs t :=
  List.filter_append ..

@[simp] theorem mem_fetchesFrom {fs : List Fetch} {t : String} {f : Fetch} :
    f ∈ fetchesFrom fs t ↔ f ∈ fs ∧ f.record.target = t := by
  simp [fetchesFrom]

theorem mem_targets {fs : List Fetch} {t : String} :
    t ∈ targets fs ↔ ∃ f ∈ fs, f.record.target = t := by
  simp [targets]

theorem targets_append (fs gs : List Fetch) :
    targets (fs ++ gs) =
      targets fs ++ targets (gs.filter fun g => g.record.target ∉ targets fs) := by
  simp only [targets, List.map_append, List.eraseDups_append, List.removeAll, List.filter_map]
  congr 3
  refine List.filter_congr fun g _ => ?_
  rw [Function.comp_apply, List.elem_eq_mem, ← decide_not]
  simp only [List.mem_eraseDups]

theorem targets_concat_of_mem {fs : List Fetch} {f : Fetch} (h : f.record.target ∈ targets fs) :
    targets (fs ++ [f]) = targets fs := by
  simp [targets_append, h]

theorem targets_concat_of_notMem {fs : List Fetch} {f : Fetch} (h : f.record.target ∉ targets fs) :
    targets (fs ++ [f]) = targets fs ++ [f.record.target] := by
  simp [targets_append, h]

theorem nodup_targets (fs : List Fetch) : (targets fs).Nodup := by
  induction fs using List.reverseRecOn with
  | nil => exact List.nodup_nil
  | append_singleton fs f ih =>
    by_cases h : f.record.target ∈ targets fs
    · rwa [targets_concat_of_mem h]
    · rw [targets_concat_of_notMem h]
      exact ih.append (List.nodup_singleton _) (by simpa using h)

theorem fetchesFrom_eq_nil {fs : List Fetch} {t : String} (h : t ∉ targets fs) :
    fetchesFrom fs t = [] := by
  refine List.eq_nil_iff_forall_not_mem.mpr fun f hf => h ?_
  obtain ⟨hmem, ht⟩ := mem_fetchesFrom.mp hf
  exact mem_targets.mpr ⟨f, hmem, ht⟩

/-! ## Groups -/

namespace FetchGroup

/-- The group of the actor `t` among the fetches `fs`. -/
def within (fs : List Fetch) (t : String) : FetchGroup := ⟨t, fetchesFrom fs t⟩

theorem within_concat_of_ne {fs : List Fetch} {f : Fetch} {t : String} (h : f.record.target ≠ t) :
    within (fs ++ [f]) t = within fs t := by
  simp [within, fetchesFrom, h]

theorem within_concat_self (fs : List Fetch) (f : Fetch) :
    within (fs ++ [f]) f.record.target =
      ⟨f.record.target, fetchesFrom fs f.record.target ++ [f]⟩ := by
  simp [within, fetchesFrom]

theorem map_within_concat {fs : List Fetch} {f : Fetch} {ts : List String}
    (h : f.record.target ∉ ts) : ts.map (within (fs ++ [f])) = ts.map (within fs) :=
  List.map_congr_left fun _ ht => within_concat_of_ne fun heq => h (heq ▸ ht)

/-- A fetch from an actor that has a group joins that group, and the others stay. -/
theorem insert_map_within (fs : List Fetch) (f : Fetch) {ts : List String} (hnodup : ts.Nodup)
    (h : f.record.target ∈ ts) :
    insert f (ts.map (within fs)) = ts.map (within (fs ++ [f])) := by
  induction ts with
  | nil => cases h
  | cons t ts ih =>
    obtain ⟨ht, hnodup⟩ := List.nodup_cons.mp hnodup
    rw [List.map_cons, List.map_cons, insert]
    split
    · rename_i heq
      rw [show t = f.record.target from heq] at ht ⊢
      rw [map_within_concat ht, within_concat_self]
      rfl
    · rename_i hne
      have hother : f.record.target ≠ t := Ne.symm hne
      rw [ih hnodup ((List.mem_cons.mp h).resolve_left hother), within_concat_of_ne hother]

/-- A fetch from an actor without a group opens one at the end. -/
theorem insert_of_notMem (f : Fetch) {gs : List FetchGroup}
    (h : f.record.target ∉ gs.map target) : insert f gs = gs ++ [⟨f.record.target, [f]⟩] := by
  induction gs with
  | nil => rfl
  | cons g gs ih =>
    rw [List.map_cons, List.mem_cons, not_or] at h
    rw [insert, if_neg (Ne.symm h.1), ih h.2, List.cons_append]

/-- A fetch joins the group at the place of its actor. -/
theorem insert_of_idxOf? {gs : List FetchGroup} {f : Fetch} {i : Nat}
    (h : (gs.map target).idxOf? f.record.target = some i) :
    i < gs.length ∧
      (insert f gs).map fetches =
        (gs.map fetches).modify i (· ++ [f]) ∧
      (insert f gs).map target = gs.map target := by
  induction gs generalizing i with
  | nil => cases h
  | cons g gs ih =>
    rw [List.map_cons, List.idxOf?_cons] at h
    rw [insert]
    split
    · rename_i heq
      obtain rfl : 0 = i := by simpa [heq] using h
      exact ⟨Nat.zero_lt_succ _, rfl, rfl⟩
    · rename_i hne
      obtain ⟨j, hj, rfl⟩ : ∃ j, (gs.map target).idxOf? f.record.target = some j ∧
          j + 1 = i := by simpa [hne] using h
      obtain ⟨hlt, hfetches, htargets⟩ := ih hj
      refine ⟨Nat.succ_lt_succ hlt, ?_, ?_⟩
      · rw [List.map_cons, hfetches, List.map_cons, List.modify_succ_cons]
      · rw [List.map_cons, htargets, List.map_cons]

theorem insert_groups (fs : List Fetch) (f : Fetch) :
    insert f ((targets fs).map (within fs)) = (targets (fs ++ [f])).map (within (fs ++ [f])) := by
  by_cases h : f.record.target ∈ targets fs
  · rw [targets_concat_of_mem h, insert_map_within fs f (nodup_targets fs) h]
  · have hnew : f.record.target ∉ ((targets fs).map (within fs)).map target := by
      simpa [within] using h
    rw [targets_concat_of_notMem h, insert_of_notMem f hnew, List.map_append,
      map_within_concat h, List.map_singleton, within_concat_self, fetchesFrom_eq_nil h,
      List.nil_append]

/-- The groups are those of the actors in the order in which they first appear. -/
theorem ofFetches_eq (fs : List Fetch) : ofFetches fs = (targets fs).map (within fs) := by
  induction fs using List.reverseRecOn with
  | nil => rfl
  | append_singleton fs f ih =>
    have hstep : ofFetches (fs ++ [f]) = insert f (ofFetches fs) := by
      simp only [ofFetches, List.foldl_append, List.foldl_cons, List.foldl_nil]
    rw [hstep, ih, insert_groups]

end FetchGroup

theorem groupFetches_eq_flatMap (fs : List Fetch) :
    groupFetches fs = (targets fs).flatMap (fetchesFrom fs) := by
  rw [groupFetches, FetchGroup.ofFetches_eq, List.flatMap_map]
  rfl

/-! ## What a grouped list looks like -/

/-- Of two fetches from one actor, all that stand between them are from that actor too. -/
def SideBySide (fs : List Fetch) : Prop :=
  ∀ f m g, [f, m, g].Sublist fs → f.record.target = g.record.target →
    m.record.target = f.record.target

theorem sideBySide_append {t : String} {fs gs : List Fetch} (hfs : ∀ f ∈ fs, f.record.target = t)
    (hgs : ∀ g ∈ gs, g.record.target ≠ t) (h : SideBySide gs) : SideBySide (fs ++ gs) := by
  intro f m g hsub hends
  obtain ⟨left, right, hsplit, hleft, hright⟩ := List.sublist_append_iff.mp hsub
  -- The three are cut where `fs` ends.
  rcases left with _ | ⟨a, _ | ⟨b, left⟩⟩
  · rw [List.nil_append] at hsplit
    exact h f m g (hsplit ▸ hright) hends
  · obtain ⟨rfl, rfl⟩ : f = a ∧ [m, g] = right := by simpa using hsplit
    have hf := hfs f (hleft.subset (by simp))
    have hg := hgs g (hright.subset (by simp))
    exact absurd (hends.symm.trans hf) hg
  · obtain ⟨rfl, rfl, -⟩ : f = a ∧ m = b ∧ [g] = left ++ right := by simpa using hsplit
    rw [hfs f (hleft.subset (by simp)), hfs m (hleft.subset (by simp))]

theorem target_mem_of_mem_flatMap {fs : List Fetch} {ts : List String} {g : Fetch}
    (h : g ∈ ts.flatMap (fetchesFrom fs)) : g.record.target ∈ ts := by
  obtain ⟨t, ht, hg⟩ := List.mem_flatMap.mp h
  rwa [(mem_fetchesFrom.mp hg).2]

theorem sideBySide_flatMap (fs : List Fetch) {ts : List String} (hnodup : ts.Nodup) :
    SideBySide (ts.flatMap (fetchesFrom fs)) := by
  induction ts with
  | nil => exact fun f m g hsub => absurd hsub (by simp)
  | cons t ts ih =>
    obtain ⟨ht, hnodup⟩ := List.nodup_cons.mp hnodup
    rw [List.flatMap_cons]
    refine sideBySide_append (fun f hf => (mem_fetchesFrom.mp hf).2) (fun g hg heq => ht ?_)
      (ih hnodup)
    exact heq ▸ target_mem_of_mem_flatMap hg

theorem fetchesFrom_fetchesFrom_self (fs : List Fetch) (t : String) :
    fetchesFrom (fetchesFrom fs t) t = fetchesFrom fs t :=
  List.filter_eq_self.mpr fun _ hf => decide_eq_true (mem_fetchesFrom.mp hf).2

theorem fetchesFrom_flatMap_of_notMem (fs : List Fetch) {ts : List String} {t : String}
    (h : t ∉ ts) : fetchesFrom (ts.flatMap (fetchesFrom fs)) t = [] := by
  refine List.eq_nil_iff_forall_not_mem.mpr fun f hf => h ?_
  obtain ⟨hmem, rfl⟩ := mem_fetchesFrom.mp hf
  exact target_mem_of_mem_flatMap hmem

theorem fetchesFrom_flatMap_of_mem (fs : List Fetch) {ts : List String} {t : String}
    (hnodup : ts.Nodup) (h : t ∈ ts) :
    fetchesFrom (ts.flatMap (fetchesFrom fs)) t = fetchesFrom fs t := by
  obtain ⟨before, after, rfl⟩ := List.append_of_mem h
  obtain ⟨-, hafter, hbefore⟩ := List.nodup_append.mp hnodup
  have hb : t ∉ before := fun ht => hbefore t ht t (by simp) rfl
  have ha : t ∉ after := (List.nodup_cons.mp hafter).1
  rw [List.flatMap_append, List.flatMap_cons, fetchesFrom_append, fetchesFrom_append,
    fetchesFrom_flatMap_of_notMem fs hb, fetchesFrom_flatMap_of_notMem fs ha,
    fetchesFrom_fetchesFrom_self, List.nil_append, List.append_nil]

theorem fetchesFrom_groupFetches (fs : List Fetch) (t : String) :
    fetchesFrom (groupFetches fs) t = fetchesFrom fs t := by
  rw [groupFetches_eq_flatMap]
  by_cases h : t ∈ targets fs
  · exact fetchesFrom_flatMap_of_mem fs (nodup_targets fs) h
  · rw [fetchesFrom_flatMap_of_notMem fs h, fetchesFrom_eq_nil h]

theorem targets_fetchesFrom {fs : List Fetch} {t : String} (h : t ∈ targets fs) :
    targets (fetchesFrom fs t) = [t] := by
  obtain ⟨f, hf, rfl⟩ := mem_targets.mp h
  have hne : fetchesFrom fs f.record.target ≠ [] :=
    List.ne_nil_of_mem (mem_fetchesFrom.mpr ⟨hf, rfl⟩)
  obtain ⟨g, gs, hgs⟩ := List.exists_cons_of_ne_nil hne
  have hall : ∀ g' ∈ g :: gs, g'.record.target = f.record.target := fun g' hg' =>
    (mem_fetchesFrom.mp (hgs ▸ hg')).2
  have hnone : gs.filter (fun g' => g'.record.target ∉ [g.record.target]) = [] := by
    refine List.filter_eq_nil_iff.mpr fun g' hg' => ?_
    simp [hall g (by simp), hall g' (by simp [hg'])]
  rw [hgs, ← List.singleton_append, targets_append, targets_singleton, hnone, targets_nil,
    List.append_nil, hall g (by simp)]

theorem targets_flatMap (fs : List Fetch) {ts : List String} (hnodup : ts.Nodup)
    (h : ∀ t ∈ ts, t ∈ targets fs) : targets (ts.flatMap (fetchesFrom fs)) = ts := by
  induction ts with
  | nil => rfl
  | cons t ts ih =>
    obtain ⟨ht, hnodup⟩ := List.nodup_cons.mp hnodup
    have hothers : (ts.flatMap (fetchesFrom fs)).filter (fun g => g.record.target ∉ [t]) =
        ts.flatMap (fetchesFrom fs) := by
      refine List.filter_eq_self.mpr fun g hg => ?_
      simpa using fun heq : g.record.target = t => ht (heq ▸ target_mem_of_mem_flatMap hg)
    rw [List.flatMap_cons, targets_append, targets_fetchesFrom (h t (by simp)), hothers,
      ih hnodup fun u hu => h u (List.mem_cons_of_mem t hu), List.singleton_append]

theorem targets_groupFetches (fs : List Fetch) : targets (groupFetches fs) = targets fs := by
  rw [groupFetches_eq_flatMap]
  exact targets_flatMap fs (nodup_targets fs) fun _ ht => ht

theorem groupFetches_groupFetches (fs : List Fetch) :
    groupFetches (groupFetches fs) = groupFetches fs := by
  rw [groupFetches_eq_flatMap (groupFetches fs), targets_groupFetches,
    funext (fetchesFrom_groupFetches fs), ← groupFetches_eq_flatMap]

/-! ## Buckets found by a map -/

/-- Buckets in the order in which they were opened, and the place of each actor's bucket. -/
structure Buckets where
  places : Std.HashMap String Nat
  buckets : List (List Fetch)

namespace Buckets

/-- The place of the bucket of the actor `t`, which is opened at the end where there is none. -/
def enter (t : String) (b : Buckets) : Nat × Buckets :=
  match b.places[t]? with
  | some i => (i, b)
  | none => (b.buckets.length, ⟨b.places.insert t b.buckets.length, b.buckets ++ [[]]⟩)

/-- Puts a fetch into the bucket at the place `i`; `none` where there is no such bucket. -/
def put? (i : Nat) (f : Fetch) (b : Buckets) : Option Buckets :=
  if i < b.buckets.length then some { b with buckets := b.buckets.modify i (· ++ [f]) } else none

def add? (b : Buckets) (f : Fetch) : Option Buckets :=
  put? (b.enter f.record.target).1 f (b.enter f.record.target).2

/-- All fetches, bucket by bucket. -/
def regroup? (fs : List Fetch) : Option (List Fetch) :=
  (fs.foldlM add? ⟨∅, []⟩).map fun b => b.buckets.flatten

/-- The buckets are those of the groups, and the place of an actor is that of its group. -/
structure Holds (b : Buckets) (gs : List FetchGroup) : Prop where
  buckets : b.buckets = gs.map FetchGroup.fetches
  places : ∀ t, b.places[t]? = (gs.map FetchGroup.target).idxOf? t

theorem holds_empty : Holds ⟨∅, []⟩ [] := ⟨rfl, fun _ => Std.HashMap.getElem?_empty⟩

/-- A new actor's place comes after all others. -/
theorem idxOf?_concat {ts : List String} {t : String} (h : t ∉ ts) (u : String) :
    (ts ++ [t]).idxOf? u = if t == u then some ts.length else ts.idxOf? u := by
  have happend : (ts ++ [t]).idxOf? u =
      (ts.idxOf? u).or (([t].idxOf? u).map fun i => i + ts.length) := List.findIdx?_append
  rw [happend, List.idxOf?_singleton]
  split
  · rename_i heq
    have hnone : ts.idxOf? u = none := List.idxOf?_eq_none_iff.mpr (eq_of_beq heq ▸ h)
    simp [hnone]
  · rw [Option.map_none, Option.or_none]

theorem Holds.add {b : Buckets} {gs : List FetchGroup} (h : Holds b gs) (f : Fetch) :
    ∃ b', b.add? f = some b' ∧ Holds b' (FetchGroup.insert f gs) := by
  have hplace := h.places f.record.target
  rcases hidx : (gs.map FetchGroup.target).idxOf? f.record.target with _ | i
  · -- A bucket is opened at the end, and the fetch is put there.
    have hnew : f.record.target ∉ gs.map FetchGroup.target := List.idxOf?_eq_none_iff.mp hidx
    have hlen : b.buckets.length = (gs.map FetchGroup.target).length := by
      rw [h.buckets, List.length_map, List.length_map]
    rw [hidx] at hplace
    refine ⟨⟨b.places.insert f.record.target b.buckets.length, b.buckets ++ [[f]]⟩, ?_, ?_, ?_⟩
    · simp [add?, enter, put?, hplace, List.modify_eq_take_cons_drop]
    · rw [FetchGroup.insert_of_notMem f hnew, List.map_append, h.buckets]
      rfl
    · intro t
      rw [FetchGroup.insert_of_notMem f hnew, Std.HashMap.getElem?_insert, h.places, hlen,
        List.map_append]
      exact (idxOf?_concat hnew t).symm
  · obtain ⟨hlt, hfetches, htargets⟩ := FetchGroup.insert_of_idxOf? hidx
    rw [hidx] at hplace
    refine ⟨{ b with buckets := b.buckets.modify i (· ++ [f]) }, ?_, ?_, ?_⟩
    · simp [add?, enter, put?, hplace, h.buckets, hlt]
    · rw [hfetches, h.buckets]
    · intro t
      rw [htargets, ← h.places]

theorem Holds.foldlM {b : Buckets} {gs : List FetchGroup} (h : Holds b gs) (fs : List Fetch) :
    ∃ b', fs.foldlM add? b = some b' ∧
      Holds b' (fs.foldl (fun gs f => FetchGroup.insert f gs) gs) := by
  induction fs generalizing b gs with
  | nil => exact ⟨b, rfl, h⟩
  | cons f fs ih =>
    obtain ⟨b₁, hadd, h₁⟩ := h.add f
    obtain ⟨b₂, hrest, h₂⟩ := ih h₁
    refine ⟨b₂, ?_, h₂⟩
    rw [List.foldlM_cons, hadd]
    exact hrest

/-- Every fetch finds its bucket, and the buckets in a row are the grouped fetches. -/
theorem regroup?_eq (fs : List Fetch) : regroup? fs = some (groupFetches fs) := by
  obtain ⟨b, hrun, hb⟩ := holds_empty.foldlM fs
  rw [regroup?, hrun, Option.map_some, hb.buckets, ← List.flatMap_def]
  rfl

end Buckets

/-- Actor after actor, as they first appear, the grouped list holds all fetches from that actor in
their own order, whatever they read.  It is a rearrangement of the fetches in which those from one
actor stand side by side, and grouping it once more changes nothing.  Filling buckets that a map
finds gives the same list. -/
theorem groupFetches_stable (fs : List Fetch) :
    groupFetches fs = (targets fs).flatMap (fetchesFrom fs) ∧
      (groupFetches fs).Perm fs ∧
      SideBySide (groupFetches fs) ∧
      groupFetches (groupFetches fs) = groupFetches fs ∧
      Buckets.regroup? fs = some (groupFetches fs) := by
  have hspec := groupFetches_eq_flatMap fs
  refine ⟨hspec, groupFetches_perm fs, ?_, groupFetches_groupFetches fs, Buckets.regroup?_eq fs⟩
  rw [hspec]
  exact sideBySide_flatMap fs (nodup_targets fs)

/-- A fetch of another record moves behind the earlier fetch from its actor. -/
example :
    groupFetches [⟨"l0", ⟨.position, "a"⟩⟩, ⟨"l1", ⟨.frame, "b"⟩⟩, ⟨"l2", ⟨.direction, "a"⟩⟩] =
      [⟨"l0", ⟨.position, "a"⟩⟩, ⟨"l2", ⟨.direction, "a"⟩⟩, ⟨"l1", ⟨.frame, "b"⟩⟩] := by
  decide

end SceneFormula
