import SceneFormula.Proofs.Compilation
import SceneFormula.Proofs.Grouping

/-!
# Names of locals

Locals tie the code of a program to its fetches, and nothing else depends on them.  As long as the
fetches have names of their own, their order does not matter; and another stem gives the same
program with other names, which a host that looks at records only cannot notice.
-/

namespace SceneFormula

/-! ### The order of fetches -/

theorem Fetch.find?_eq_of_perm {fs gs : List Fetch} (h : fs.Perm gs)
    (hnodup : (fs.map Fetch.name).Nodup) (name : String) :
    fs.find? (·.name == name) = gs.find? (·.name == name) := by
  have hnodup' : (gs.map Fetch.name).Nodup := (h.map Fetch.name).nodup_iff.mp hnodup
  cases hf : fs.find? (·.name == name) with
  | some f =>
    have hname : f.name = name := by simpa using List.find?_some hf
    have hmem : f ∈ gs := h.mem_iff.mp (List.mem_of_find?_eq_some hf)
    rw [← hname, Fetch.find?_name hnodup' hmem]
  | none =>
    symm
    rw [List.find?_eq_none] at hf ⊢
    intro f hmem
    exact hf f (h.mem_iff.mpr hmem)

namespace Program

variable {σ : Type}

theorem step_congr {fs gs : List Fetch}
    (h : ∀ name, fs.find? (·.name == name) = gs.find? (·.name == name)) (host : Host σ)
    (stack : List Int64) (i : Instruction) : step host fs stack i = step host gs stack i := by
  cases i with
  | slot name index => simp only [step, h name]
  | unary op => cases op <;> rfl
  | _ => rfl

theorem steps_congr {fs gs : List Fetch}
    (h : ∀ name, fs.find? (·.name == name) = gs.find? (·.name == name)) (host : Host σ)
    (stack : List Int64) (code : List Instruction) :
    steps host fs stack code = steps host gs stack code := by
  induction code generalizing stack with
  | nil => rfl
  | cons i code ih =>
    have hrest : (fun stack => steps host fs stack code) = fun stack => steps host gs stack code :=
      funext ih
    rw [steps, steps, step_congr h, hrest]

/-- A program whose locals have one fetch each does not depend on the order of its fetches. -/
theorem run_eq_of_perm {p : Program} {fs : List Fetch} (h : fs.Perm p.fetches)
    (hnodup : (p.fetches.map Fetch.name).Nodup) (host : Host σ) :
    run ⟨p.code, fs⟩ host = p.run host := by
  have hfind (name : String) := Fetch.find?_eq_of_perm h.symm hnodup name
  rw [run, run, steps_congr hfind]

end Program

/-! ### Renaming -/

def Fetch.rename (ρ : String → String) (f : Fetch) : Fetch := { f with name := ρ f.name }

def Instruction.rename (ρ : String → String) : Instruction → Instruction
  | slot name index => slot (ρ name) index
  | i => i

def Program.rename (ρ : String → String) (p : Program) : Program :=
  ⟨p.code.map (Instruction.rename ρ), p.fetches.map (Fetch.rename ρ)⟩

def HostCall.rename (ρ : String → String) : HostCall → HostCall
  | slot f index => slot (f.rename ρ) index
  | c => c

/-- The host looks at the record of a fetch and not at the local that it is read into. -/
def Host.IgnoresNames {σ : Type} (host : Host σ) : Prop :=
  ∀ f g index, f.record = g.record → host.slot f index = host.slot g index

section

variable {p q : String} {ρ : String → String}

theorem exists_renaming (p q : String) :
    ∃ ρ : String → String, ∀ k, ρ (localName p k) = localName q k := by
  refine ⟨localName q ∘ Function.invFun (localName p), fun k => ?_⟩
  rw [Function.comp_apply, Function.leftInverse_invFun (localName_injective p) k]

theorem ActorProperty.code_rename (property : ActorProperty) (name : String) :
    property.code (ρ name) = (property.code name).map (Instruction.rename ρ) := by
  cases property <;> rfl

theorem Expr.compileFrom_rename (hρ : ∀ k, ρ (localName p k) = localName q k) (e : Expr)
    (k : Nat) : e.compileFrom q k = (e.compileFrom p k).rename ρ := by
  induction e generalizing k with
  | property target property =>
    simp only [compileFrom, Program.rename, List.map_cons, List.map_nil, Fetch.rename, hρ,
      ← ActorProperty.code_rename]
  | binary op l r ihl ihr =>
    simp only [compileFrom, ihl, ihr, Program.rename, List.map_append, List.length_map]
    rfl
  | unary op x ih =>
    simp only [compileFrom, ih, Program.rename, List.map_append]
    rfl
  | _ => rfl

end

/-! ### Calls up to renaming -/

namespace Run

variable {σ α β : Type} {ρ : String → String}

/-- `n` does what `m` does, and makes the same calls with renamed locals. -/
def RenamesCalls (ρ : String → String) (m n : Run (σ × CallLog) α) : Prop :=
  ∀ s log r t log', m.run (s, log) = (r, (t, log')) →
    n.run (s, log.map (HostCall.rename ρ)) = (r, (t, log'.map (HostCall.rename ρ)))

theorem renamesCalls_pure (a : α) :
    RenamesCalls ρ (pure a : Run (σ × CallLog) α) (pure a) := by
  intro s log r t log' h
  cases h
  rfl

theorem renamesCalls_throw (e : Error) :
    RenamesCalls ρ (throw e : Run (σ × CallLog) α) (throw e) := by
  intro s log r t log' h
  cases h
  rfl

theorem renamesCalls_logged (call : HostCall) (m : Run σ α) :
    RenamesCalls ρ (m.logged call) (m.logged (call.rename ρ)) := by
  intro s log r t log' h
  rcases hm : m.run s with ⟨r', t'⟩
  rw [run_logged hm] at h
  cases h
  rw [run_logged hm, List.map_append, List.map_singleton]

theorem RenamesCalls.bind {m n : Run (σ × CallLog) α} {f g : α → Run (σ × CallLog) β}
    (h : RenamesCalls ρ m n) (hf : ∀ a, RenamesCalls ρ (f a) (g a)) :
    RenamesCalls ρ (m >>= f) (n >>= g) := by
  intro s log r t log' hrun
  rw [run_bind] at hrun ⊢
  rcases hm : m.run (s, log) with ⟨e | a, u, log''⟩
  · rw [hm] at hrun
    cases hrun
    rw [h _ _ _ _ _ hm]
  · rw [hm] at hrun
    rw [h _ _ _ _ _ hm]
    exact hf a _ _ _ _ _ hrun

theorem renamesCalls_random (host : Host σ) (x : Int64) :
    RenamesCalls ρ (host.logging.random x : Run (σ × CallLog) Int64) (host.logging.random x) := by
  intro s log r t log' h
  rcases hx : host.random x s with ⟨n, u⟩
  rw [Host.run_random_logging hx] at h
  cases h
  rw [Host.run_random_logging hx, List.map_append, List.map_singleton]
  rfl

theorem RenamesCalls.lift {m n : Run (σ × CallLog) α} (h : RenamesCalls ρ m n) (k : Nat) :
    RenamesCalls ρ ((m : Evaluation (σ × CallLog) α).run k)
      ((n : Evaluation (σ × CallLog) α).run k) := by
  rw [StateT.run_monadLift, StateT.run_monadLift]
  exact h.bind fun a => renamesCalls_pure (a, k)

end Run

/-! ### Evaluation under another stem -/

section

open Run

variable {σ : Type} {p q : String} {ρ : String → String}

theorem BinaryOp.renamesCalls_apply (op : BinaryOp) (a b : Int64) :
    RenamesCalls ρ (op.apply a b : Run (σ × CallLog) Int64) (op.apply a b) := by
  unfold BinaryOp.apply
  split
  · exact renamesCalls_pure _
  · exact renamesCalls_throw _

theorem UnaryOp.renamesCalls_apply (host : Host σ) (op : UnaryOp) (x : Int64) :
    RenamesCalls ρ (op.apply host.logging x) (op.apply host.logging x) := by
  obtain rfl | ⟨n, h⟩ := op.eq_random_or_exists_result? x
  · exact renamesCalls_random host x
  · simp only [apply_of_result? h]
    exact renamesCalls_pure _

theorem ActorProperty.renamesCalls_evaluate (hρ : ∀ k, ρ (localName p k) = localName q k)
    {host : Host σ} (hhost : host.IgnoresNames) (target : String) (property : ActorProperty)
    (k : Nat) :
    RenamesCalls ρ ((property.evaluate host.logging p target).run k)
      ((property.evaluate host.logging q target).run k) := by
  have hread (stem : String) : (property.evaluate host.logging stem target).run k =
      host.logging.slot ⟨localName stem k, ⟨property.place.1, target⟩⟩ property.place.2 >>=
        fun x => pure (property.ofSlot x, k + 1) := by
    simp [ActorProperty.evaluate]
  have hslot : host.slot ⟨localName q k, ⟨property.place.1, target⟩⟩ property.place.2 =
      host.slot ⟨localName p k, ⟨property.place.1, target⟩⟩ property.place.2 :=
    hhost _ _ _ rfl
  rw [hread, hread]
  refine RenamesCalls.bind ?_ fun x => renamesCalls_pure _
  simp only [Host.logging, hslot]
  rw [← hρ k]
  exact renamesCalls_logged (.slot _ _) _

theorem Expr.renamesCalls_evaluate (hρ : ∀ k, ρ (localName p k) = localName q k) {host : Host σ}
    (hhost : host.IgnoresNames) (e : Expr) (k : Nat) :
    RenamesCalls ρ ((e.evaluate host.logging p).run k) ((e.evaluate host.logging q).run k) := by
  induction e generalizing k with
  | number n | truth b => exact renamesCalls_pure _
  | var id => exact (renamesCalls_logged (.var id) (host.var id)).lift k
  | property target property => exact property.renamesCalls_evaluate hρ hhost target k
  | binary op l r ihl ihr =>
    rw [evaluate, evaluate, StateT.run_bind, StateT.run_bind]
    refine (ihl k).bind fun a => ?_
    rw [StateT.run_bind, StateT.run_bind]
    exact (ihr a.2).bind fun b => (op.renamesCalls_apply a.1 b.1).lift b.2
  | unary op x ih =>
    rw [evaluate, evaluate, StateT.run_bind, StateT.run_bind]
    exact (ih k).bind fun a => (op.renamesCalls_apply host a.1).lift a.2

theorem Formula.renamesCalls_value (hρ : ∀ k, ρ (localName p k) = localName q k)
    {host : Host σ} (hhost : host.IgnoresNames) (f : Formula) :
    RenamesCalls ρ (f.value host.logging p) (f.value host.logging q) := by
  simp only [value, ← evaluate_complete, StateT.run'_eq, map_eq_pure_bind]
  exact (f.complete.renamesCalls_evaluate hρ hhost 0).bind fun a => renamesCalls_pure a.1

end

/-! ### Compiled programs -/

namespace Formula

variable {σ : Type}

theorem run_compile_of_perm {stem : String} {f : Formula} {fs : List Fetch}
    (h : fs.Perm (f.compile stem).fetches) (host : Host σ) :
    Program.run ⟨(f.compile stem).code, fs⟩ host = f.value host stem := by
  rw [Program.run_eq_of_perm h (f.complete.nodup_fetches_compileFrom stem 0),
    run_compile_eq_value]

/-- With another stem the program of a formula is the same up to the names of its locals, and with
its fetches in any other order it still does the same.  A host that ignores names gives it the same
end, from the same calls up to the renaming. -/
theorem run_compile_renamed (p q : String) (f : Formula) :
    (∃ ρ : String → String, ∀ k, ρ (localName p k) = localName q k) ∧
      ((f.compile p).grouped.code = (f.compile p).code ∧
        (f.compile p).grouped.fetches.Perm (f.compile p).fetches) ∧
      ∀ ρ : String → String, (∀ k, ρ (localName p k) = localName q k) →
        f.compile q = (f.compile p).rename ρ ∧
          ∀ fs gs : List Fetch, fs.Perm (f.compile p).fetches → gs.Perm (f.compile q).fetches →
            ∀ (σ : Type) (host : Host σ), host.IgnoresNames → ∀ s : σ, ∃ r t calls,
              (Program.run ⟨(f.compile p).code, fs⟩ host).run s = (r, t) ∧
                (Program.run ⟨(f.compile q).code, gs⟩ host).run s = (r, t) ∧
                (Program.run ⟨(f.compile p).code, fs⟩ host.logging).run (s, []) =
                  (r, (t, calls)) ∧
                (Program.run ⟨(f.compile q).code, gs⟩ host.logging).run (s, []) =
                  (r, (t, calls.map (HostCall.rename ρ))) := by
  refine ⟨exists_renaming p q, ⟨rfl, groupFetches_perm _⟩, fun ρ hρ =>
    ⟨f.complete.compileFrom_rename hρ 0, ?_⟩⟩
  intro fs gs hfs hgs σ host hhost s
  rcases hp : (f.value host.logging p).run (s, []) with ⟨r, t, calls⟩
  have hq := f.renamesCalls_value hρ hhost s [] r t calls hp
  rw [← run_compile_of_perm hfs] at hp
  rw [← run_compile_of_perm hgs] at hq
  exact ⟨r, t, calls, (Program.onlyLogs_run _ host).run_eq hp,
    (Program.onlyLogs_run _ host).run_eq hq, hp, hq⟩

/-- A host in which every actor stands at the same place. -/
def uniformHost : Host Unit where
  var _ := pure 0
  slot f _ := pure (if f.record.kind = .position then 640 else 3)
  random x := pure x

/-- The horizontal position of one actor and the frame of another. -/
def placeAndFrame : Formula :=
  binary .add (some (property "player" .tileX)) (some (property "npc" .frame))

theorem run_compile_renamed_reverse :
    (∀ k, "1" ++ localName "" k = localName "1" k) ∧ uniformHost.IgnoresNames ∧
      (placeAndFrame.compile "1").grouped.fetches.Perm (placeAndFrame.compile "1").fetches ∧
      ∃ r t calls,
        (Program.run ⟨(placeAndFrame.compile "").code,
          (placeAndFrame.compile "").fetches.reverse⟩ uniformHost.logging).run ((), []) =
            (r, (t, calls)) ∧
        (Program.run ⟨(placeAndFrame.compile "1").code,
          (placeAndFrame.compile "1").grouped.fetches⟩ uniformHost.logging).run ((), []) =
            (r, (t, calls.map (HostCall.rename ("1" ++ ·)))) := by
  have hρ : ∀ k, "1" ++ localName "" k = localName "1" k := by
    intro k
    rw [localName, localName, String.empty_append]
  have hhost : uniformHost.IgnoresNames := by
    intro f g index h
    simp only [uniformHost, h]
  have hgrouped := (run_compile_renamed "1" "" placeAndFrame).2.1.2
  obtain ⟨r, t, calls, -, -, hp, hq⟩ := ((run_compile_renamed "" "1" placeAndFrame).2.2
    ("1" ++ ·) hρ).2 _ _ (List.reverse_perm _) hgrouped Unit uniformHost hhost ()
  exact ⟨hρ, hhost, hgrouped, r, t, calls, hp, hq⟩

end Formula

end SceneFormula
