import SceneFormula.Proofs.Parsing.Levels
import SceneFormula.Proofs.Parsing.Machine

/-!
# How deep the parser goes

What each open call waits for decides which calls may be open below it.  So the powers of the open
calls rise between one unit of the depth and the next, and as the depth is bounded, so is the number
of calls that are open at a time.
-/

namespace SceneFormula.Parser.Machine

/-! ### Calls that are counted -/

/-- An open call that takes up a unit of the depth, or that reads operators of more than a power. -/
inductive Call where
  | nested
  | binary (power : Nat)
  deriving DecidableEq

def Frame.call? : Frame → Option Call
  | nested => some .nested
  | first p | right p _ _ => some (.binary p)
  | _ => none

def Control.call? : Control → Option Call
  | binary p | climb p _ => some (.binary p)
  | _ => none

/-- The open calls that are counted, the last of them first. -/
def State.calls (s : State) : List Call :=
  s.control.call?.toList ++ s.frames.filterMap Frame.call?

/-- The powers of the open calls, parted where a unit of the depth is taken up. -/
def layers : List Call → List (List Nat)
  | [] => [[]]
  | .nested :: calls => [] :: layers calls
  | .binary p :: calls => (layers calls).modifyHead (p :: ·)

/-- From the last on, the powers `ps` rise from 0 to at most 10. -/
structure Climbing (ps : List Nat) : Prop where
  rising : ps.Pairwise (· > ·)
  bounded : ∀ p ∈ ps, p ≤ 10
  bottom : ∀ p ∈ ps.getLast?, p = 0

theorem climbing_nil : Climbing [] :=
  ⟨.nil, nofun, nofun⟩

theorem climbing_zero : Climbing [0] where
  rising := List.pairwise_singleton _ _
  bounded := by simp
  bottom := by simp

namespace Climbing

variable {p q : Nat} {ps : List Nat}

theorem cons (h : Climbing (p :: ps)) (hpq : p < q) (hq : q ≤ 10) : Climbing (q :: p :: ps) where
  rising := by
    refine List.pairwise_cons.mpr ⟨fun r hr => ?_, h.rising⟩
    rcases List.mem_cons.mp hr with rfl | hr
    · exact hpq
    · exact ((List.pairwise_cons.mp h.rising).1 r hr).trans hpq
  bounded := List.forall_mem_cons.mpr ⟨hq, h.bounded⟩
  bottom := h.bottom

theorem tail (h : Climbing (p :: ps)) : Climbing ps where
  rising := (List.pairwise_cons.mp h.rising).2
  bounded := fun q hq => h.bounded q (List.mem_cons_of_mem p hq)
  bottom := by
    cases ps with
    | nil => simp
    | cons => exact h.bottom

theorem length_le (h : Climbing ps) : ps.length ≤ 11 := by
  have hnodup : ps.Nodup := h.rising.imp fun hlt => hlt.ne'
  have hsub : ps.toFinset ⊆ Finset.range 11 := by
    intro p hp
    exact Finset.mem_range.mpr (Nat.lt_succ_of_le (h.bounded p (List.mem_toFinset.mp hp)))
  rw [← List.toFinset_card_of_nodup hnodup]
  exact Finset.card_le_card hsub

end Climbing

theorem length_layers (calls : List Call) : (layers calls).length = calls.count .nested + 1 := by
  induction calls with
  | nil => rfl
  | cons call calls ih => cases call <;> simp [layers, ih]

theorem length_flatten_layers (calls : List Call) :
    calls.length = calls.count .nested + (layers calls).flatten.length := by
  induction calls with
  | nil => rfl
  | cons call calls ih =>
    cases call with
    | nested =>
      simp only [List.length_cons, List.count_cons_self, layers, List.flatten_cons, List.nil_append]
      omega
    | binary p =>
      obtain ⟨ps, pss, hlayers⟩ : ∃ ps pss, layers calls = ps :: pss :=
        List.exists_cons_of_length_pos (by rw [length_layers]; omega)
      rw [hlayers] at ih
      simp only [layers, hlayers, List.modifyHead_cons, List.flatten_cons, List.length_append,
        List.length_cons] at ih ⊢
      rw [List.count_cons_of_ne (by simp)]
      omega

/-- Where every layer rises, there are at most 11 calls in it. -/
theorem length_calls_le {calls : List Call} (h : ∀ ps ∈ layers calls, Climbing ps) :
    calls.length ≤ calls.count .nested + 11 * (calls.count .nested + 1) := by
  have hsum : (layers calls).flatten.length ≤ (layers calls).length * 11 := by
    rw [List.length_flatten, ← smul_eq_mul, ← List.length_map (f := List.length)]
    refine List.sum_le_card_nsmul _ _ fun n hn => ?_
    obtain ⟨ps, hps, rfl⟩ := List.mem_map.mp hn
    exact (h ps hps).length_le
  rw [length_layers] at hsum
  have hlength := length_flatten_layers calls
  omega

/-! ### What the open calls wait for -/

/-- The calls whose results an open call may wait for. -/
inductive Awaited where
  | binary (power : Nat)
  | operand
  | list
  | body (body : Body)

/-- The call that returns what the body returns, one unit of the depth above it. -/
def Body.awaited : Body → Awaited
  | prefixed => .operand
  | parenthesised => .body .prefixed
  | arguments => .list

/-- `Awaits w fs`: the calls `fs` are open, and the last of them waits for the result of `w`. -/
inductive Awaits : Awaited → List Frame → Prop
  | whole : Awaits (.binary 0) [.whole]
  | first {p fs} (h : Awaits (.binary p) fs) : Awaits .operand (.first p :: fs)
  | right {p q op left fs} (h : Awaits (.binary p) fs) (hpq : p < q) (hq : q ≤ 10) :
      Awaits (.binary q) (.right p op left :: fs)
  | nested {body : Body} {fs} (h : Awaits body.awaited fs) : Awaits (.body body) (.nested :: fs)
  | sign {build fs} (h : Awaits (.body .prefixed) fs) : Awaits .operand (.sign build :: fs)
  | closing {fs} (h : Awaits (.body .parenthesised) fs) : Awaits (.binary 0) (.closing :: fs)
  | given {name callee start fs} (h : Awaits (.body .prefixed) fs) :
      Awaits .list (.given name callee start :: fs)
  | argument {before fs} (h : Awaits (.body .arguments) fs) :
      Awaits (.binary 0) (.argument before :: fs)

/-- The powers of the calls that are open since a unit of the depth was last taken up. -/
def Awaited.Tops : Awaited → List Nat → Prop
  | binary p, ps => Climbing (p :: ps)
  | operand, ps => Climbing ps
  | list, ps | body _, ps => ps = []

theorem Awaited.Tops.climbing {w : Awaited} {ps : List Nat} (h : w.Tops ps) : Climbing ps := by
  cases w with
  | binary p => exact Climbing.tail h
  | operand => exact h
  | list | body =>
    obtain rfl : ps = [] := h
    exact climbing_nil

/-- One call may be open that neither is counted nor takes up a unit of the depth itself. -/
def Awaited.spare : Awaited → Nat
  | body _ => 0
  | _ => 1

namespace Awaits

variable {w : Awaited} {f : Frame} {fs : List Frame}

theorem tail (h : Awaits w (f :: fs)) : fs = [] ∨ ∃ w', Awaits w' fs := by
  cases h with
  | whole => exact .inl rfl
  | first h | right h | nested h | sign h | closing h | given h | argument h => exact .inr ⟨_, h⟩

theorem layers (h : Awaits w fs) : ∃ ps pss,
    layers (fs.filterMap Frame.call?) = ps :: pss ∧ w.Tops ps ∧ ∀ qs ∈ pss, Climbing qs := by
  induction h with
  | whole => exact ⟨[], [], rfl, climbing_zero, nofun⟩
  | @first p fs _ ih =>
    obtain ⟨ps, pss, hlayers, htop, hrest⟩ := ih
    exact ⟨p :: ps, pss, by simp [Frame.call?, Machine.layers, hlayers], htop, hrest⟩
  | @right p q op left fs _ hpq hq ih =>
    obtain ⟨ps, pss, hlayers, htop, hrest⟩ := ih
    exact ⟨p :: ps, pss, by simp [Frame.call?, Machine.layers, hlayers],
      Climbing.cons htop hpq hq, hrest⟩
  | nested _ ih =>
    obtain ⟨ps, pss, hlayers, htop, hrest⟩ := ih
    exact ⟨[], ps :: pss, by simp [Frame.call?, Machine.layers, hlayers], rfl,
      List.forall_mem_cons.mpr ⟨htop.climbing, hrest⟩⟩
  | sign _ ih =>
    obtain ⟨ps, pss, hlayers, rfl, hrest⟩ := ih
    exact ⟨[], pss, hlayers, climbing_nil, hrest⟩
  | closing _ ih | argument _ ih =>
    obtain ⟨ps, pss, hlayers, rfl, hrest⟩ := ih
    exact ⟨[], pss, hlayers, climbing_zero, hrest⟩
  | given _ ih => exact ih

/-- Besides the calls that are counted at most one is open for each unit of the depth, and one
more. -/
theorem length_le (h : Awaits w fs) :
    fs.length ≤ (fs.filterMap Frame.call?).length +
      (fs.filterMap Frame.call?).count .nested + w.spare := by
  induction h with
  | whole => exact le_rfl
  | first _ ih | right _ _ _ ih =>
    simp [Frame.call?, Awaited.spare] at ih ⊢
    omega
  | sign _ ih | closing _ ih | given _ ih | argument _ ih =>
    simpa [List.filterMap_cons, Frame.call?, Awaited.spare] using ih
  | @nested body fs _ ih =>
    have hspare : body.awaited.spare ≤ 1 := by cases body <;> simp [Body.awaited, Awaited.spare]
    have hbody : (Awaited.body body).spare = 0 := rfl
    simp only [List.filterMap_cons, Frame.call?, List.length_cons, List.count_cons_self]
    omega

end Awaits

/-! ### What every step keeps -/

/-- The result of a reading that has come to its end. -/
def Control.outcome? : Control → Option (Except SyntaxError Expr)
  | value e => some (.ok e)
  | failed e => some (.error e)
  | _ => none

theorem Control.isResult_of_outcome? {control : Control} {r : Except SyntaxError Expr}
    (h : control.outcome? = some r) : control.isResult = true := by
  cases control <;> first | rfl | cases h

/-- What is to be done suits an open call that waits for the result of `w`. -/
def Control.Suits : Control → Awaited → Prop
  | binary p, w | climb p _, w => w = .binary p
  | enter body, w => w = body.awaited
  | inside body, w => w = .body body
  | primary, w | call _ _ _, w => w = .body .prefixed
  | value _, w => w ≠ .list ∧ w ≠ .body .arguments
  | values _, w => w = .list ∨ w = .body .arguments
  | failed _, _ => True

/-- A reading has come to its end, or there is an open call that what is to be done suits. -/
inductive Typed : Control → List Frame → Prop
  | done {control r} (h : control.outcome? = some r) : Typed control []
  | inside {control w fs} (hw : control.Suits w) (h : Awaits w fs) : Typed control fs

namespace Typed

variable {control : Control} {f : Frame} {fs : List Frame}

theorem exists_awaits (h : Typed control fs) (hopen : control.isResult = false ∨ fs ≠ []) :
    ∃ w, control.Suits w ∧ Awaits w fs := by
  cases h with
  | inside hw h => exact ⟨_, hw, h⟩
  | done h =>
    have hcontrol := hopen.resolve_right (not_not_intro rfl)
    have hresult := Control.isResult_of_outcome? h
    rw [hcontrol] at hresult
    cases hresult

theorem failed {w : Awaited} (h : Awaits w (f :: fs)) (e : SyntaxError) :
    Typed (.failed e) fs := by
  rcases h.tail with rfl | ⟨w', h⟩
  · exact .done rfl
  · exact .inside trivial h

theorem value {w : Awaited} (h : Awaits w fs) (hlist : w ≠ .list) (hargs : w ≠ .body .arguments)
    (e : Expr) : Typed (.value e) fs :=
  .inside ⟨hlist, hargs⟩ h

end Typed

theorem power?_le {t : Token} {q : Nat} {op : BinaryOp} (h : t.power? = some (q, op)) :
    q ≤ 10 := by
  obtain ⟨⟨k, op'⟩, hk, heq⟩ := Option.map_eq_some_iff.mp h
  obtain ⟨rfl, rfl⟩ := Prod.mk.inj heq
  have hpos : 0 < k := stops_zero [t] t rfl k op' hk
  omega

theorem Typed.step {ms : List Mark} {s s' : State} (hs : Typed s.control s.frames)
    (h : Step ms s s') : Typed s'.control s'.frames := by
  cases h with
  | binary =>
    obtain ⟨_, rfl, hw⟩ := hs.exists_awaits (.inl rfl)
    exact .inside rfl (.first hw)
  | climb _ hop hq =>
    obtain ⟨_, rfl, hw⟩ := hs.exists_awaits (.inl rfl)
    obtain ⟨t, -, hop⟩ := Option.bind_eq_some_iff.mp hop
    exact .inside rfl (.right hw hq (power?_le hop))
  | stop | leaf =>
    obtain ⟨_, rfl, hw⟩ := hs.exists_awaits (.inl rfl)
    exact .value hw nofun nofun _
  | enter =>
    obtain ⟨_, rfl, hw⟩ := hs.exists_awaits (.inl rfl)
    exact .inside rfl (.nested hw)
  | sign =>
    obtain ⟨_, rfl, hw⟩ := hs.exists_awaits (.inl rfl)
    exact .inside rfl (.sign hw)
  | unsigned | name | paren =>
    obtain ⟨_, rfl, hw⟩ := hs.exists_awaits (.inl rfl)
    exact .inside rfl hw
  | parenthesised =>
    obtain ⟨_, rfl, hw⟩ := hs.exists_awaits (.inl rfl)
    exact .inside rfl (.closing hw)
  | empty =>
    obtain ⟨_, rfl, hw⟩ := hs.exists_awaits (.inl rfl)
    exact .inside (.inr rfl) hw
  | arguments =>
    obtain ⟨_, rfl, hw⟩ := hs.exists_awaits (.inl rfl)
    exact .inside rfl (.argument hw)
  | call =>
    obtain ⟨_, rfl, hw⟩ := hs.exists_awaits (.inl rfl)
    exact .inside rfl (.given hw)
  | fault _ _ hcontrol =>
    obtain ⟨_, -, hw⟩ := hs.exists_awaits (.inl hcontrol)
    exact .inside trivial hw
  | whole =>
    obtain ⟨_, -, hw⟩ := hs.exists_awaits (.inr nofun)
    cases hw
    exact .done rfl
  | first =>
    obtain ⟨_, -, hw⟩ := hs.exists_awaits (.inr nofun)
    cases hw with
    | first hw => exact .inside rfl hw
  | right =>
    obtain ⟨_, -, hw⟩ := hs.exists_awaits (.inr nofun)
    cases hw with
    | right hw => exact .inside rfl hw
  | signed =>
    obtain ⟨_, -, hw⟩ := hs.exists_awaits (.inr nofun)
    cases hw with
    | sign hw => exact .value hw nofun nofun _
  | closing =>
    obtain ⟨_, -, hw⟩ := hs.exists_awaits (.inr nofun)
    cases hw with
    | closing hw => exact .value hw nofun nofun _
  | apply =>
    obtain ⟨_, -, hw⟩ := hs.exists_awaits (.inr nofun)
    cases hw with
    | given hw => exact .value hw nofun nofun _
  | comma =>
    obtain ⟨_, -, hw⟩ := hs.exists_awaits (.inr nofun)
    cases hw with
    | argument hw => exact .inside rfl (.argument hw)
  | last =>
    obtain ⟨_, -, hw⟩ := hs.exists_awaits (.inr nofun)
    cases hw with
    | argument hw => exact .inside (.inr rfl) hw
  | value =>
    obtain ⟨_, hsuits, hw⟩ := hs.exists_awaits (.inr nofun)
    cases hw with
    | @nested body _ hw =>
      cases body with
      | prefixed | parenthesised => exact .value hw nofun nofun _
      | arguments => exact absurd rfl hsuits.2
  | values =>
    obtain ⟨_, hsuits, hw⟩ := hs.exists_awaits (.inr nofun)
    cases hw with
    | nested hw =>
      obtain rfl : _ = Body.arguments := by simpa [Control.Suits] using hsuits
      exact .inside (.inl rfl) hw
  | count =>
    obtain ⟨_, -, hw⟩ := hs.exists_awaits (.inr nofun)
    exact .failed hw _
  | failed | unwind | faultAfter =>
    obtain ⟨_, -, hw⟩ := hs.exists_awaits (.inr nofun)
    exact .failed hw _

variable {ms : List Mark} {s s' : State}

theorem Step.cursor (h : Step ms s s') : s'.cursor = s.cursor ∨ s'.cursor = bump ms s.cursor := by
  cases h <;> first | exact .inl rfl | exact .inr rfl | assumption

/-- The number of units of the depth that open calls take up. -/
def nestings : List Frame → Nat
  | [] => 0
  | .nested :: fs => nestings fs + 1
  | _ :: fs => nestings fs

theorem nestings_cons {f : Frame} (hf : f ≠ .nested) (fs : List Frame) :
    nestings (f :: fs) = nestings fs := by
  cases f <;> first | rfl | exact absurd rfl hf

theorem count_nested (fs : List Frame) :
    (fs.filterMap Frame.call?).count .nested = nestings fs := by
  induction fs with
  | nil => rfl
  | cons f fs ih => cases f <;> simpa [Frame.call?, nestings, List.filterMap_cons] using ih

theorem Step.depth (h : Step ms s s') (hs : nestings s.frames = s.depth) :
    nestings s'.frames = s'.depth := by
  cases h with
  | enter => exact congrArg (· + 1) hs
  | value | values | failed => exact Nat.eq_sub_of_add_eq hs
  | unwind hf => exact (nestings_cons hf _).symm.trans hs
  | faultAfter _ hf => exact (nestings_cons hf _).symm.trans hs
  | _ => exact hs

/-- What holds at every moment of a reading. -/
structure Orderly (ms : List Mark) (s : State) : Prop where
  inBounds : s.cursor < ms.length
  counted : nestings s.frames = s.depth
  shallow : s.depth ≤ budget
  typed : Typed s.control s.frames

/-- What does not grow with the text: at most 256 units of the depth are taken up, and as the powers
rise from 0 to at most 10 between one unit and the next, there are at most 11 calls that read
operators for each of 257 layers. -/
structure Bounded (ms : List Mark) (s : State) : Prop where
  cursor : s.cursor < ms.length
  counted : s.calls.count .nested = s.depth
  nested : s.depth ≤ 256
  climbing : ∀ ps ∈ layers s.calls, Climbing ps
  binary : s.calls.countP (· ≠ .nested) ≤ 11 * 257
  frames : s.frames.length ≤ 256 + 12 * 257

namespace Orderly

theorem start (h : ms ≠ []) : Orderly ms start where
  inBounds := List.length_pos_iff.mpr h
  counted := rfl
  shallow := Nat.zero_le _
  typed := .inside rfl .whole

theorem step (h : Orderly ms s) (hstep : Step ms s s') : Orderly ms s' where
  inBounds := by
    rcases hstep.cursor with heq | heq
    · exact heq ▸ h.inBounds
    · exact heq ▸ bump_lt h.inBounds
  counted := hstep.depth h.counted
  shallow := by
    have hshallow := h.shallow
    cases hstep with
    | enter hd => exact hd
    | value | values | failed => exact (Nat.sub_le _ _).trans hshallow
    | _ => exact hshallow
  typed := h.typed.step hstep

theorem steps (h : Orderly ms s) (hsteps : Steps ms s s') : Orderly ms s' := by
  induction hsteps with
  | refl => exact h
  | tail _ hstep ih => exact ih.step (step_cases hstep)

/-- As long as a call is open there is a next step. -/
theorem exists_step (h : Orderly ms s) (hopen : s.frames ≠ []) :
    ∃ s', Machine.step ms s = some s' := by
  obtain ⟨c, d, control, fs⟩ := s
  obtain ⟨m, hm⟩ : ∃ m, ms[c]? = some m := ⟨_, List.getElem?_eq_getElem h.inBounds⟩
  obtain ⟨w, hw, hfs⟩ := h.typed.exists_awaits (.inr hopen)
  cases control with
  | binary | climb | primary | call => simp [Machine.step, expect, hm]
  | enter =>
    simp only [Machine.step]
    split <;> simp [hm]
  | inside body => cases body <;> simp [Machine.step, hm]
  | value e =>
    cases hfs with
    | given => exact absurd rfl hw.1
    | argument =>
      simp only [Machine.step, expect, hm, Option.bind_some]
      split <;> simp
    | _ => simp [Machine.step, expect, hm]
  | values =>
    rcases hw with rfl | rfl <;> cases hfs <;> simp [Machine.step]
  | failed =>
    cases fs with
    | nil => exact absurd rfl hopen
    | cons f fs => cases f <;> simp [Machine.step]

theorem climbing (h : Orderly ms s) : ∀ ps ∈ layers s.calls, Climbing ps := by
  obtain ⟨c, d, control, fs⟩ := s
  have htyped : Typed control fs := h.typed
  cases htyped with
  | done hr =>
    cases control with
    | value | failed => exact List.forall_mem_singleton.mpr climbing_nil
    | _ => cases hr
  | inside hw hfs =>
    obtain ⟨ps, pss, hlayers, htop, hrest⟩ := hfs.layers
    cases control with
    | binary p | climb p left =>
      obtain rfl := hw
      simpa [State.calls, Control.call?, layers, hlayers] using ⟨htop, hrest⟩
    | _ => simpa [State.calls, Control.call?, hlayers] using ⟨htop.climbing, hrest⟩

theorem count_calls (h : Orderly ms s) : s.calls.count .nested = s.depth := by
  rw [← h.counted, ← count_nested, State.calls, List.count_append]
  cases s.control <;> simp [Control.call?]

theorem countP_calls_le (h : Orderly ms s) : s.calls.countP (· ≠ .nested) ≤ 11 * (s.depth + 1) := by
  have hle := length_calls_le h.climbing
  have hparts : s.calls.length = s.calls.count .nested + s.calls.countP (· ≠ .nested) := by
    simpa [List.count] using s.calls.length_eq_countP_add_countP (· == .nested)
  rw [h.count_calls] at hle hparts
  omega

theorem length_frames_le (h : Orderly ms s) :
    s.frames.length ≤ s.calls.length + s.depth + 1 := by
  have hcounted := (count_nested s.frames).trans h.counted
  rw [State.calls, List.length_append]
  cases hfs : s.frames with
  | nil => exact Nat.zero_le _
  | cons f fs =>
    obtain ⟨w, -, hw⟩ := h.typed.exists_awaits (.inr (by simp [hfs]))
    have hle := hw.length_le
    have hspare : w.spare ≤ 1 := by cases w <;> simp [Awaited.spare]
    rw [hfs] at hle hcounted
    omega

theorem bounded (h : Orderly ms s) : Bounded ms s := by
  have hshallow : s.depth ≤ 256 := h.shallow
  have hbinary := h.countP_calls_le
  have hcalls := length_calls_le h.climbing
  have hframes := h.length_frames_le
  rw [h.count_calls] at hcalls
  exact ⟨h.inBounds, h.count_calls, hshallow, h.climbing, by omega, by omega⟩

theorem step_eq_none_iff (h : Orderly ms s) : Machine.step ms s = none ↔ s.frames = [] := by
  constructor
  · intro hnone
    by_contra hopen
    obtain ⟨s', hs'⟩ := h.exists_step hopen
    rw [hnone] at hs'
    cases hs'
  · obtain ⟨c, d, control, fs⟩ := s
    rintro rfl
    cases h.typed with
    | done hr =>
      cases control with
      | value | failed => rfl
      | _ => cases hr
    | inside _ hw => cases hw

end Orderly

/-! ### Returning -/

/-- A result is returned to the open calls `fs`. -/
def State.Returned (fs : List Frame) (s : State) : Prop :=
  s.control.isResult = true ∧ s.frames = fs

/-- `Returns ms fs s s'`: the calls `fs` stay open from `s` on until a result is returned to them,
and this is for the first time at `s'`. -/
def Returns (ms : List Mark) (fs : List Frame) (s s' : State) : Prop :=
  Relation.ReflTransGen (fun a b => Machine.step ms a = some b ∧ fs <:+ a.frames ∧ ¬ a.Returned fs)
    s s' ∧ s'.Returned fs

/-- A step closes no call but the last, and this one only by returning a result to it. -/
theorem Step.frames (h : Step ms s s') : s.frames <:+ s'.frames ∨
    s.control.isResult = true ∧ ∃ f fs, s.frames = f :: fs ∧ fs <:+ s'.frames := by
  cases h with
  | binary | climb | enter | sign | parenthesised | arguments | call =>
    exact .inl (List.suffix_cons _ _)
  | stop | unsigned | empty | leaf | name | paren | fault => exact .inl List.suffix_rfl
  | comma => exact .inr ⟨rfl, _, _, rfl, List.suffix_cons _ _⟩
  | _ => exact .inr ⟨rfl, _, _, rfl, List.suffix_rfl⟩

theorem Step.suffix {fs : List Frame} (h : Step ms s s') (hfs : fs <:+ s.frames)
    (hreturned : ¬ s.Returned fs) : fs <:+ s'.frames := by
  rcases h.frames with hsuffix | ⟨hresult, f, gs, hgs, hsuffix⟩
  · exact hfs.trans hsuffix
  · rw [hgs] at hfs
    rcases List.suffix_cons_iff.mp hfs with rfl | hfs
    · exact absurd ⟨hresult, hgs⟩ hreturned
    · exact hfs.trans hsuffix

/-- The machine has no choice: before it comes to its end it goes through every state that it can
reach. -/
theorem Steps.to_end {t : State} (h : Steps ms s s') (ht : Steps ms s t)
    (hend : Machine.step ms t = none) : Steps ms s' t := by
  have hunique : Relator.RightUnique fun a b => Machine.step ms a = some b := by
    intro a b c hb hc
    exact Option.some.inj (hb.symm.trans hc)
  rcases Relation.ReflTransGen.total_of_right_unique hunique h ht with hto | hfrom
  · exact hto
  · rcases hfrom.cases_head with rfl | ⟨b, hb, -⟩
    · exact .refl
    · rw [hend] at hb
      cases hb

/-- A reading that comes to its end has returned to every call that was open. -/
theorem exists_returns {t : State} (h : Steps ms s t) (hresult : t.control.isResult = true)
    (ht : t.frames = []) {fs : List Frame} (hfs : fs <:+ s.frames) :
    ∃ s', Returns ms fs s s' ∧ Steps ms s s' := by
  induction h using Relation.ReflTransGen.head_induction_on with
  | refl =>
    rw [ht, List.suffix_nil] at hfs
    exact ⟨t, ⟨.refl, hresult, ht.trans hfs.symm⟩, .refl⟩
  | @head a b hab _ ih =>
    by_cases hreturned : a.Returned fs
    · exact ⟨a, ⟨.refl, hreturned⟩, .refl⟩
    · obtain ⟨s', ⟨hruns, hs'⟩, hsteps⟩ := ih ((step_cases hab).suffix hfs hreturned)
      exact ⟨s', ⟨hruns.head ⟨hab, hfs, hreturned⟩, hs'⟩, hsteps.head hab⟩

end SceneFormula.Parser.Machine
