import SceneFormula.Proofs.Nodes

/-!
# Walks and searches

A walk that is asked for one node after the other gives the nodes of a formula in preorder, and then
no more.  In preorder the paths from the root to the nodes ascend lexicographically, so no node is
left out and none comes twice.  A search asks about the nodes in this order, up to the first one
that it was looking for; the answers may depend on what was asked before.
-/

namespace SceneFormula

namespace Formula

/-! ### Paths -/

/-- The operand on one side of a node: the left one or the only one on side 0, the right one on
side 1. -/
def operand? : Formula → Nat → Option Formula
  | binary _ l _, 0 => l
  | binary _ _ r, 1 => r
  | unary _ x, 0 => x
  | _, _ => none

/-- The node at the end of a path from the root.  At each node the path says on which side it goes
on. -/
def at? : Formula → List Nat → Option Formula
  | f, [] => some f
  | f, side :: path => (f.operand? side).bind fun g => g.at? path

mutual

/-- The paths to the nodes of a formula, in preorder. -/
def paths : Formula → List (List Nat)
  | binary _ l r => [] :: (pathsFrom 0 l ++ pathsFrom 1 r)
  | unary _ x => [] :: pathsFrom 0 x
  | _ => [[]]

def pathsFrom (side : Nat) : Option Formula → List (List Nat)
  | none => []
  | some f => f.paths.map (side :: ·)

end

theorem mem_pathsFrom {side : Nat} {x : Option Formula} {path : List Nat} :
    path ∈ pathsFrom side x ↔ ∃ g rest, x = some g ∧ rest ∈ g.paths ∧ path = side :: rest := by
  cases x <;> simp [pathsFrom, eq_comm]

theorem cons_mem_paths {f : Formula} {side : Nat} {path : List Nat} :
    side :: path ∈ f.paths ↔ ∃ g, f.operand? side = some g ∧ path ∈ g.paths := by
  cases f with
  | binary op l r => rcases side with _ | _ | side <;> simp [paths, mem_pathsFrom, operand?]
  | unary op x => cases side <;> simp [paths, mem_pathsFrom, operand?]
  | _ => simp [paths, operand?]

theorem mem_paths_iff {f : Formula} {path : List Nat} :
    path ∈ f.paths ↔ (f.at? path).isSome := by
  induction path generalizing f with
  | nil => cases f <;> simp [paths, at?]
  | cons side path ih =>
    rw [cons_mem_paths, at?]
    cases f.operand? side with
    | none => simp
    | some g => simp [ih]

mutual

/-- A path comes before those that it begins, and paths to the left come before paths to the
right. -/
theorem pairwise_paths (f : Formula) : f.paths.Pairwise (· < ·) := by
  cases f with
  | binary op l r =>
    rw [paths, List.pairwise_cons, List.pairwise_append]
    refine ⟨?_, pairwise_pathsFrom 0 l, pairwise_pathsFrom 1 r, ?_⟩
    · simp only [List.mem_append, mem_pathsFrom]
      rintro _ (⟨_, _, _, _, rfl⟩ | ⟨_, _, _, _, rfl⟩) <;> exact List.nil_lt_cons _ _
    · simp only [mem_pathsFrom]
      rintro _ ⟨_, _, _, _, rfl⟩ _ ⟨_, _, _, _, rfl⟩
      exact List.Lex.rel (by decide)
  | unary op x =>
    rw [paths, List.pairwise_cons]
    refine ⟨?_, pairwise_pathsFrom 0 x⟩
    simp only [mem_pathsFrom]
    rintro _ ⟨_, _, _, _, rfl⟩
    exact List.nil_lt_cons _ _
  | _ => exact List.pairwise_singleton _ _

theorem pairwise_pathsFrom (side : Nat) (x : Option Formula) :
    (pathsFrom side x).Pairwise (· < ·) := by
  cases x with
  | none => exact .nil
  | some f => exact (pairwise_paths f).map _ fun _ _ h => List.Lex.cons h

end

mutual

/-- The nodes at the ends of the paths are the nodes in preorder. -/
theorem map_at?_paths (f : Formula) : f.paths.map f.at? = f.preorder.map some := by
  cases f with
  | binary op l r =>
    simp only [paths, preorder, List.map_cons, List.map_append, at?]
    rw [map_at?_pathsFrom (binary op l r) 0 l rfl, map_at?_pathsFrom (binary op l r) 1 r rfl]
  | unary op x =>
    simp only [paths, preorder, List.map_cons, at?]
    rw [map_at?_pathsFrom (unary op x) 0 x rfl]
  | _ => rfl

theorem map_at?_pathsFrom (f : Formula) (side : Nat) (x : Option Formula)
    (h : f.operand? side = x) :
    (pathsFrom side x).map f.at? = (preorderOperand x).map some := by
  cases x with
  | none => rfl
  | some g =>
    have hside : f.at? ∘ (side :: ·) = g.at? := by
      funext path
      simp [at?, h]
    rw [pathsFrom, preorderOperand, List.map_map, hside, map_at?_paths g]

end

end Formula

namespace Walk

/-- `w.Yields fs`: asked for one node after the other, the walk gives `fs`, and then no more. -/
inductive Yields : Walk → List Formula → Prop
  | ended {w} (h : w.next? = none) : Yields w []
  | next {w rest f fs} (h : w.next? = some (f, rest)) (hrest : Yields rest fs) : Yields w (f :: fs)

/-- A walk goes on to yield the nodes of its pending subtrees, one subtree after the other. -/
theorem yields_pending (w : Walk) : w.Yields (w.pending.flatMap Formula.preorder) := by
  induction w using induction_pending with
  | nil => exact .ended rfl
  | cons f fs ih =>
    rw [List.flatMap_cons, Formula.preorder_eq_cons, List.cons_append, ← List.flatMap_append]
    exact .next rfl ih

theorem Yields.unique {w : Walk} {fs gs : List Formula} (hf : w.Yields fs) (hg : w.Yields gs) :
    fs = gs := by
  induction hf generalizing gs with
  | ended h =>
    cases hg with
    | ended => rfl
    | next h' => simp [h] at h'
  | next h _ ih =>
    cases hg with
    | ended h' => simp [h] at h'
    | next h' hrest =>
      rw [h] at h'
      cases h'
      rw [ih hrest]

end Walk

/-! ### Predicates with a memory -/

section Search

variable {σ : Type} {p : Formula → StateM σ Bool}

/-- The predicate `p`, which besides notes the nodes that it is asked about. -/
def noting (p : Formula → StateM σ Bool) (f : Formula) : StateM (σ × List Formula) Bool :=
  fun (s, asked) =>
    let (b, s) := (p f).run s
    (b, (s, asked ++ [f]))

/-- `Denies p s fs t`: asked about the nodes `fs` one after the other, `p` answers false each time,
and its memory goes from `s` to `t`. -/
inductive Denies (p : Formula → StateM σ Bool) : σ → List Formula → σ → Prop
  | nil (s) : Denies p s [] s
  | cons {s t u f fs} (h : (p f).run s = (false, t)) (hfs : Denies p t fs u) : Denies p s (f :: fs) u

theorem run_anyM_cons (f : Formula) (fs : List Formula) (s : σ) :
    ((f :: fs).anyM p).run s =
      if ((p f).run s).1 then (true, ((p f).run s).2) else (fs.anyM p).run ((p f).run s).2 := by
  rw [List.anyM, StateT.run_bind]
  generalize (p f).run s = r
  obtain ⟨_ | _, t⟩ := r <;> rfl

theorem run_noting (f : Formula) (s : σ) (asked : List Formula) :
    (noting p f).run (s, asked) = (((p f).run s).1, (((p f).run s).2, asked ++ [f])) := rfl

theorem run_anyM_noting (fs : List Formula) (s : σ) (asked : List Formula) :
    Prod.map id Prod.fst ((fs.anyM (noting p)).run (s, asked)) = (fs.anyM p).run s := by
  induction fs generalizing s asked with
  | nil => rfl
  | cons f fs ih =>
    rw [run_anyM_cons, run_anyM_cons, run_noting]
    split
    · rfl
    · exact ih _ _

/-- A search passes over the nodes that are denied. -/
theorem Denies.run_anyM {s t : σ} {before : List Formula} (h : Denies p s before t)
    (rest asked : List Formula) :
    ((before ++ rest).anyM (noting p)).run (s, asked) =
      (rest.anyM (noting p)).run (t, asked ++ before) := by
  induction h generalizing asked with
  | nil s => rw [List.nil_append, List.append_nil]
  | cons h _ ih =>
    rw [List.cons_append, run_anyM_cons, run_noting, h, if_neg Bool.false_ne_true, ih,
      List.append_assoc, List.singleton_append]

theorem Denies.run_anyM_hit {s t u : σ} {before : List Formula} {hit : Formula}
    (h : Denies p s before t) (hhit : (p hit).run t = (true, u)) (after asked : List Formula) :
    ((before ++ hit :: after).anyM (noting p)).run (s, asked) =
      (true, (u, asked ++ before ++ [hit])) := by
  rw [h.run_anyM, run_anyM_cons, run_noting, hhit, if_pos rfl]

theorem Denies.run_anyM_all {s t : σ} {fs : List Formula} (h : Denies p s fs t)
    (asked : List Formula) :
    (fs.anyM (noting p)).run (s, asked) = (false, (t, asked ++ fs)) := by
  have hall := h.run_anyM [] asked
  rwa [List.append_nil] at hall

/-- All nodes are denied, or there is a first one that is not. -/
theorem denies_or_exists_hit (p : Formula → StateM σ Bool) (s : σ) (fs : List Formula) :
    (∃ t, Denies p s fs t) ∨
      ∃ before hit after t u,
        fs = before ++ hit :: after ∧ Denies p s before t ∧ (p hit).run t = (true, u) := by
  induction fs generalizing s with
  | nil => exact .inl ⟨s, .nil s⟩
  | cons f fs ih =>
    obtain ⟨b, t, hf⟩ : ∃ b t, (p f).run s = (b, t) := ⟨_, _, rfl⟩
    cases b with
    | true => exact .inr ⟨[], f, fs, s, t, rfl, .nil s, hf⟩
    | false =>
      rcases ih t with ⟨u, hu⟩ | ⟨before, hit, after, u, v, rfl, hu, hhit⟩
      · exact .inl ⟨u, .cons hf hu⟩
      · exact .inr ⟨f :: before, hit, after, u, v, rfl, .cons hf hu, hhit⟩

theorem run_anyM_eq_true_iff {s u : σ} {fs asked : List Formula} :
    (fs.anyM (noting p)).run (s, []) = (true, (u, asked)) ↔
      ∃ before hit after t, fs = before ++ hit :: after ∧ asked = before ++ [hit] ∧
        Denies p s before t ∧ (p hit).run t = (true, u) := by
  constructor
  · intro h
    rcases denies_or_exists_hit p s fs with ⟨t, ht⟩ | ⟨before, hit, after, t, v, rfl, ht, hhit⟩
    · rw [ht.run_anyM_all] at h
      cases h
    · rw [ht.run_anyM_hit hhit, List.nil_append] at h
      cases h
      exact ⟨before, hit, after, t, rfl, rfl, ht, hhit⟩
  · rintro ⟨before, hit, after, t, rfl, rfl, ht, hhit⟩
    rw [ht.run_anyM_hit hhit, List.nil_append]

theorem run_anyM_eq_false_iff {s u : σ} {fs asked : List Formula} :
    (fs.anyM (noting p)).run (s, []) = (false, (u, asked)) ↔ asked = fs ∧ Denies p s fs u := by
  constructor
  · intro h
    rcases denies_or_exists_hit p s fs with ⟨t, ht⟩ | ⟨before, hit, after, t, v, rfl, ht, hhit⟩
    · rw [ht.run_anyM_all, List.nil_append] at h
      cases h
      exact ⟨rfl, ht⟩
    · rw [ht.run_anyM_hit hhit] at h
      cases h
  · rintro ⟨rfl, hu⟩
    rw [hu.run_anyM_all, List.nil_append]

end Search

namespace Formula

/-- A walk ends, and yields just the nodes in preorder, that is, by ascending paths: each node comes
once, before its operands, and what is left before what is right.  A search ends as well.  If it
answers true, it has asked about the nodes up to the first one that the predicate answers true to,
and else about all of them; the predicate may have a memory. -/
theorem walk_and_search (f : Formula) :
    (∀ fs, f.walk.Yields fs ↔ fs = f.preorder) ∧
      (f.paths.Pairwise (· < ·) ∧ (∀ path, path ∈ f.paths ↔ (f.at? path).isSome) ∧
        f.preorder.map some = f.paths.map f.at?) ∧
      ∀ (σ : Type) (p : Formula → StateM σ Bool) (s : σ),
        (f.walk.anyM p).run s = Prod.map id Prod.fst ((f.walk.anyM (noting p)).run (s, [])) ∧
        (∀ u asked, (f.walk.anyM (noting p)).run (s, []) = (true, (u, asked)) ↔
          ∃ before hit after t, f.preorder = before ++ hit :: after ∧ asked = before ++ [hit] ∧
            Denies p s before t ∧ (p hit).run t = (true, u)) ∧
        ∀ u asked, (f.walk.anyM (noting p)).run (s, []) = (false, (u, asked)) ↔
          asked = f.preorder ∧ Denies p s f.preorder u := by
  have hyields : f.walk.Yields f.preorder := by
    have h := f.walk.yields_pending
    rwa [walk, List.flatMap_singleton] at h
  refine ⟨fun fs => ⟨fun h => h.unique hyields, fun h => h ▸ hyields⟩,
    ⟨f.pairwise_paths, fun _ => mem_paths_iff, f.map_at?_paths.symm⟩, fun σ p s => ?_⟩
  have hlist {τ : Type} (q : Formula → StateM τ Bool) : f.walk.anyM q = f.preorder.anyM q := by
    rw [Walk.anyM_eq_anyM_toList, toList_walk]
  simp only [hlist]
  exact ⟨(run_anyM_noting _ _ _).symm, fun _ _ => run_anyM_eq_true_iff,
    fun _ _ => run_anyM_eq_false_iff⟩

/-- An absent operand has no path. -/
example : (binary .add none (some (unary .abs (some (number 1))))).paths = [[], [1], [1, 0]] := by
  decide

end Formula

end SceneFormula
