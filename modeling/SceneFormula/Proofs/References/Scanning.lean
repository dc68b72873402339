import SceneFormula.Proofs.Lexing.Cursor
import Mathlib

/-!
# Scanning for references

The scanner pairs dollar signs from the left.  What it finds are the references of a text in their
order: each is the leftmost one behind the end of the one before it.  The scanner can also be run
by a cursor that takes pieces out of the text between two bytes.  No piece begins or ends inside a
character, and the ids are the same.
-/

namespace SceneFormula.Reference

/-! ### References from left to right -/

/-- What may stand between the dollar signs of a reference: digits, of which there has to be one,
and before them at most one of three letters. -/
inductive IsInside : List Char → Prop
  | plain {ds : List Char} (hne : ds ≠ []) (hds : ∀ d ∈ ds, '0' ≤ d ∧ d ≤ '9') : IsInside ds
  | lettered {c : Char} {ds : List Char} (hc : c = 'L' ∨ c = 'V' ∨ c = 'T') (hne : ds ≠ [])
      (hds : ∀ d ∈ ds, '0' ≤ d ∧ d ≤ '9') : IsInside (c :: ds)

/-- A reference stands in a text, behind `before` and in front of `after`. -/
def Stands (text before raw after : List Char) : Prop :=
  text = before ++ '$' :: (raw ++ '$' :: after) ∧ IsInside raw

/-- The ids of the references in a text.  Each reference is the leftmost one behind the end of the
one before it, so that a dollar sign which closes a reference opens none. -/
inductive Leftmost : List Char → List (List Char) → Prop
  | none {text : List Char} (h : ∀ before raw after, ¬ Stands text before raw after) :
      Leftmost text []
  | next {text before raw after id : List Char} {ids : List (List Char)}
      (h : Stands text before raw after)
      (hleft : ∀ before' raw' after', Stands text before' raw' after' →
        before.length ≤ before'.length)
      (hid : id? raw = some id) (hrest : Leftmost after ids) : Leftmost text (id :: ids)

theorem isNumeral_iff {ds : List Char} :
    isNumeral ds = true ↔ ds ≠ [] ∧ ∀ d ∈ ds, '0' ≤ d ∧ d ≤ '9' := by
  have hdigit (d : Char) : d.isDigit = true ↔ '0' ≤ d ∧ d ≤ '9' := by
    simp [Char.isDigit, Char.le_def]
  simp only [isNumeral, Bool.and_eq_true, Bool.not_eq_true', List.isEmpty_eq_false_iff,
    List.all_eq_true, hdigit]

theorem isScopeLetter_iff {c : Char} : isScopeLetter c = true ↔ c = 'L' ∨ c = 'V' ∨ c = 'T' := by
  simp only [isScopeLetter, Bool.or_eq_true, decide_eq_true_eq, or_assoc]

/-- An id is denoted by what may stand between the dollar signs, and by nothing else. -/
theorem exists_id?_iff {raw : List Char} : (∃ id, id? raw = some id) ↔ IsInside raw := by
  constructor
  · rintro ⟨id, hid⟩
    rcases id?_cases hid with ⟨c, ds, rfl, hc, hds, -⟩ | ⟨hraw, -⟩
    · obtain ⟨hne, hdigits⟩ := isNumeral_iff.mp hds
      exact .lettered (isScopeLetter_iff.mp hc) hne hdigits
    · obtain ⟨hne, hdigits⟩ := isNumeral_iff.mp hraw
      exact .plain hne hdigits
  · rintro (⟨hne, hds⟩ | ⟨hc, hne, hds⟩)
    · have hraw := isNumeral_iff.mpr ⟨hne, hds⟩
      obtain ⟨c, cs, rfl⟩ := List.exists_cons_of_ne_nil hne
      have hletter := isScopeLetter_of_isDigit (isDigit_of_isNumeral hraw c List.mem_cons_self)
      exact ⟨_, by rw [id?, hletter, if_neg (by decide), if_pos hraw]⟩
    · have hnumeral := isNumeral_iff.mpr ⟨hne, hds⟩
      exact ⟨_, by rw [id?, if_pos (isScopeLetter_iff.mpr hc), if_pos hnumeral]⟩

theorem dollar_notMem_of_id? {raw id : List Char} (h : id? raw = some id) : '$' ∉ raw :=
  fun hmem => ne_dollar_of_id? h '$' hmem rfl

theorem IsInside.dollar_notMem {raw : List Char} (h : IsInside raw) : '$' ∉ raw := by
  obtain ⟨id, hid⟩ := exists_id?_iff.mpr h
  exact dollar_notMem_of_id? hid

/-! ### Texts by their first dollar signs -/

theorem inside_append {before : List Char} (h : '$' ∉ before) (rest : List Char) :
    inside (before ++ '$' :: rest) = before :=
  Lexer.inside_append_dollar (List.forall_mem_ne'.mpr h) rest

theorem fromDollar_append {before : List Char} (h : '$' ∉ before) (rest : List Char) :
    fromDollar (before ++ '$' :: rest) = '$' :: rest :=
  List.dropWhile_append_of_pos (by simpa using List.forall_mem_ne'.mpr h)

theorem fromDollar_of_notMem {cs : List Char} (h : '$' ∉ cs) : fromDollar cs = [] :=
  List.dropWhile_eq_nil_iff.mpr (by simpa using List.forall_mem_ne'.mpr h)

theorem append_dollar_inj {cs ds rest rest' : List Char} (hcs : '$' ∉ cs) (hds : '$' ∉ ds)
    (h : cs ++ '$' :: rest = ds ++ '$' :: rest') : cs = ds ∧ rest = rest' := by
  have hinside := congrArg inside h
  have hfrom := congrArg fromDollar h
  rw [inside_append hcs, inside_append hds] at hinside
  rw [fromDollar_append hcs, fromDollar_append hds] at hfrom
  exact ⟨hinside, (List.cons.inj hfrom).2⟩

section Candidates

variable {motive : List Char → Prop}

/-- A text is without dollar signs, or has only one, or what stands between its first two denotes
an id or does not. -/
@[elab_as_elim]
theorem induction_candidates
    (none : ∀ cs, '$' ∉ cs → motive cs)
    (unclosed : ∀ before opened, '$' ∉ before → '$' ∉ opened → motive (before ++ '$' :: opened))
    (reference : ∀ before raw id rest, '$' ∉ before → id? raw = some id → motive rest →
      motive (before ++ '$' :: (raw ++ '$' :: rest)))
    (other : ∀ before raw rest, '$' ∉ before → '$' ∉ raw → id? raw = .none →
      motive ('$' :: rest) → motive (before ++ '$' :: (raw ++ '$' :: rest)))
    (cs : List Char) : motive cs := by
  induction hn : cs.length using Nat.strong_induction_on generalizing cs with
  | _ n ih =>
    subst hn
    by_cases hopen : '$' ∈ cs
    · obtain ⟨before, opened, rfl, hbefore⟩ := List.eq_append_cons_of_mem hopen
      by_cases hclose : '$' ∈ opened
      · obtain ⟨raw, rest, rfl, hraw⟩ := List.eq_append_cons_of_mem hclose
        simp only [List.length_append, List.length_cons] at ih
        cases hid : id? raw with
        | none =>
          exact other before raw rest hbefore hraw hid
            (ih (rest.length + 1) (by omega) ('$' :: rest) rfl)
        | some id =>
          exact reference before raw id rest hbefore hid (ih rest.length (by omega) rest rfl)
      · exact unclosed before opened hbefore hclose
    · exact none cs hopen

end Candidates

theorem scan_of_notMem {cs : List Char} (h : '$' ∉ cs) : scan cs = [] := by
  rw [scan_eq, fromDollar_of_notMem h]

section Candidate

variable {before raw id : List Char} (rest : List Char) (hbefore : '$' ∉ before)

include hbefore

theorem scan_unclosed {opened : List Char} (h : '$' ∉ opened) :
    scan (before ++ '$' :: opened) = [] := by
  rw [scan_eq, fromDollar_append hbefore]
  simp only [fromDollar_of_notMem h]

theorem scan_found (hid : id? raw = some id) :
    scan (before ++ '$' :: (raw ++ '$' :: rest)) = id :: scan rest := by
  have hraw := dollar_notMem_of_id? hid
  rw [scan_eq, fromDollar_append hbefore]
  simp only [fromDollar_append hraw, inside_append hraw, hid]

theorem scan_skipped (hraw : '$' ∉ raw) (hid : id? raw = none) :
    scan (before ++ '$' :: (raw ++ '$' :: rest)) = scan ('$' :: rest) := by
  rw [scan_eq, fromDollar_append hbefore]
  simp only [fromDollar_append hraw, inside_append hraw, hid]

end Candidate

/-! ### Where references stand -/

namespace Stands

variable {text before raw after : List Char}

theorem dollar_mem (h : Stands text before raw after) : '$' ∈ text := by
  rw [h.1]
  exact List.mem_append_right before List.mem_cons_self

theorem append (h : Stands text before raw after) (skipped : List Char) :
    Stands (skipped ++ text) (skipped ++ before) raw after :=
  ⟨by rw [h.1, List.append_assoc], h.2⟩

/-- No reference begins before the first dollar sign. -/
theorem of_append {skipped : List Char} (hskipped : '$' ∉ skipped)
    (h : Stands (skipped ++ text) before raw after) :
    ∃ before', before = skipped ++ before' ∧ Stands text before' raw after := by
  obtain ⟨htext, hraw⟩ := h
  rcases List.append_eq_append_iff.mp htext with ⟨before', hbefore, htext⟩ | ⟨cs, hcs, htext⟩
  · exact ⟨before', hbefore, htext, hraw⟩
  · cases cs with
    | nil => exact ⟨[], by simpa using hcs.symm, htext.symm, hraw⟩
    | cons c cs =>
      obtain ⟨rfl, -⟩ := List.cons.inj htext
      exact absurd (hcs ▸ List.mem_append_right before List.mem_cons_self) hskipped

theorem of_cons (h : Stands ('$' :: text) before raw after) :
    text = raw ++ '$' :: after ∨ ∃ before', before = '$' :: before' ∧
      Stands text before' raw after := by
  obtain ⟨htext, hraw⟩ := h
  cases before with
  | nil => exact .inl (List.cons.inj htext).2
  | cons c before' =>
    obtain ⟨rfl, htail⟩ := List.cons.inj htext
    exact .inr ⟨before', rfl, htail, hraw⟩

theorem eq_of_length_eq {before' raw' after' : List Char} (h : Stands text before raw after)
    (h' : Stands text before' raw' after') (hlength : before.length = before'.length) :
    raw = raw' ∧ after = after' := by
  obtain ⟨htext, hraw⟩ := h
  obtain ⟨htext', hraw'⟩ := h'
  obtain ⟨-, hopened⟩ := List.append_inj (htext.symm.trans htext') hlength
  exact append_dollar_inj hraw.dollar_notMem hraw'.dollar_notMem (List.cons.inj hopened).2

end Stands

namespace Leftmost

/-- What holds no beginning of a reference can be left out before the text. -/
theorem append {skipped text : List Char} {ids : List (List Char)}
    (hskipped : ∀ before raw after, Stands (skipped ++ text) before raw after →
      ∃ before', before = skipped ++ before' ∧ Stands text before' raw after)
    (h : Leftmost text ids) : Leftmost (skipped ++ text) ids := by
  cases h with
  | none hnone =>
    refine .none fun before raw after hstands => ?_
    obtain ⟨before', -, hstands'⟩ := hskipped before raw after hstands
    exact hnone before' raw after hstands'
  | next hstands hleft hid hrest =>
    refine .next (hstands.append skipped) (fun before raw after hother => ?_) hid hrest
    obtain ⟨before', rfl, hother'⟩ := hskipped before raw after hother
    have hle := hleft before' raw after hother'
    rw [List.length_append, List.length_append]
    exact Nat.add_le_add_left hle _

theorem unique {text : List Char} {ids ids' : List (List Char)} (h : Leftmost text ids)
    (h' : Leftmost text ids') : ids = ids' := by
  induction h generalizing ids' with
  | none hnone =>
    cases h' with
    | none => rfl
    | next hstands => exact absurd hstands (hnone _ _ _)
  | next hstands hleft hid _ ih =>
    cases h' with
    | none hnone => exact absurd hstands (hnone _ _ _)
    | next hstands' hleft' hid' hrest' =>
      have hlength := Nat.le_antisymm (hleft _ _ _ hstands') (hleft' _ _ _ hstands)
      obtain ⟨rfl, rfl⟩ := hstands.eq_of_length_eq hstands' hlength
      obtain rfl := Option.some.inj (hid.symm.trans hid')
      rw [ih hrest']

end Leftmost

/-- A dollar sign that closes no reference is the next that may open one. -/
theorem leftmost_scan (cs : List Char) : Leftmost cs (scan cs) := by
  induction cs using induction_candidates with
  | none cs hcs =>
    rw [scan_of_notMem hcs]
    exact .none fun before raw after h => hcs h.dollar_mem
  | unclosed before opened hbefore hopened =>
    rw [scan_unclosed hbefore hopened]
    refine .none fun before' raw after h => hopened ?_
    obtain ⟨_, -, h⟩ := h.of_append hbefore
    rcases h.of_cons with rfl | ⟨_, -, h⟩
    · exact List.mem_append_right raw List.mem_cons_self
    · exact h.dollar_mem
  | reference before raw id rest hbefore hid ih =>
    rw [scan_found rest hbefore hid]
    refine .next ⟨rfl, exists_id?_iff.mp ⟨id, hid⟩⟩ (fun before' raw' after' h => ?_) hid ih
    obtain ⟨_, rfl, -⟩ := h.of_append hbefore
    exact (List.prefix_append before _).length_le
  | other before raw rest hbefore hraw hid ih =>
    rw [scan_skipped rest hbefore hraw hid]
    have hsplit : before ++ '$' :: (raw ++ '$' :: rest) =
        (before ++ '$' :: raw) ++ '$' :: rest := by simp
    rw [hsplit]
    -- No reference begins before the second dollar sign: the first opens none, as it would have to
    -- be closed by the second, and there is no other up to there.
    refine ih.append fun before' raw' after' h => ?_
    rw [← hsplit] at h
    obtain ⟨_, rfl, hopened⟩ := h.of_append hbefore
    rcases hopened.of_cons with hclosed | ⟨_, rfl, hlater⟩
    · obtain ⟨rfl, -⟩ := append_dollar_inj hraw h.2.dollar_notMem hclosed
      obtain ⟨id, hid'⟩ := exists_id?_iff.mpr h.2
      rw [hid] at hid'
      cases hid'
    · obtain ⟨before', rfl, hlast⟩ := hlater.of_append hraw
      exact ⟨before', by simp, hlast⟩

/-! ### Scanning by a cursor -/

namespace Bytes

open Lexer (slice?)

def findDollar? (s : String) : Option Nat :=
  if '$' ∈ s.toList then some (String.ofList (inside s.toList)).utf8ByteSize else none

/-- What is known once two dollar signs have been looked for: the second is not there, or it closes
a reference, or it may still open one. -/
inductive Look
  | nothing
  | found (id : String) (next : Nat)
  | skipped (next : Nat)

/-- The second dollar sign stands at byte `stop`. -/
def Look.closed (stop : Nat) : Option String → Look
  | some id => .found id (stop + 1)
  | none => .skipped stop

/-- Looks for two dollar signs from byte `pos` on.  There is no answer if a piece of the text is
asked for that begins or ends inside a character. -/
def look? (text : String) (pos : Nat) : Option Look :=
  (slice? text pos text.utf8ByteSize).bind fun ahead =>
    match findDollar? ahead with
    | none => some .nothing
    | some opening =>
      let start := pos + opening + 1
      (slice? text start text.utf8ByteSize).bind fun opened =>
        match findDollar? opened with
        | none => some .nothing
        | some closing =>
          let stop := start + closing
          (slice? text start stop).bind fun raw => (Lexer.Bytes.id? raw).map (Look.closed stop)

theorem closed_of_look? {text : String} {pos : Nat} {l : Look} (h : look? text pos = some l) :
    l = .nothing ∨
      ∃ stop id, l = Look.closed stop id ∧ pos < stop ∧ pos < text.utf8ByteSize := by
  unfold look? at h
  obtain ⟨ahead, -, h⟩ := Option.bind_eq_some_iff.mp h
  split at h
  next => exact .inl (Option.some.inj h).symm
  next opening _ =>
    obtain ⟨opened, hopened, h⟩ := Option.bind_eq_some_iff.mp h
    obtain ⟨_, _, -, -, hsize⟩ := Lexer.slice?_eq_some_iff.mp hopened
    split at h
    next => exact .inl (Option.some.inj h).symm
    next closing _ =>
      obtain ⟨raw, -, h⟩ := Option.bind_eq_some_iff.mp h
      obtain ⟨id, -, hid⟩ := Option.map_eq_some_iff.mp h
      exact .inr ⟨_, id, hid.symm, by omega, by omega⟩

theorem lt_of_look?_skipped {text : String} {pos next : Nat}
    (h : look? text pos = some (.skipped next)) : pos < next ∧ pos < text.utf8ByteSize := by
  rcases closed_of_look? h with h | ⟨stop, _ | id, h, hstop, hsize⟩
  · cases h
  · cases h
    exact ⟨hstop, hsize⟩
  · cases h

theorem lt_of_look?_found {text id : String} {pos next : Nat}
    (h : look? text pos = some (.found id next)) : pos < next ∧ pos < text.utf8ByteSize := by
  rcases closed_of_look? h with h | ⟨stop, _ | _, h, hstop, hsize⟩
  · cases h
  · cases h
  · cases h
    exact ⟨Nat.lt_succ_of_lt hstop, hsize⟩

/-- The next reference from byte `pos` on, and the byte behind it. -/
def next? (text : String) (pos : Nat) : Option (Option (String × Nat)) :=
  match h : look? text pos with
  | none => none
  | some .nothing => some none
  | some (.found id next) => some (some (id, next))
  | some (.skipped next) =>
    have := lt_of_look?_skipped h
    next? text next
termination_by text.utf8ByteSize - pos

section Next

variable {text id : String} {pos next : Nat}

theorem next?_of_nothing (h : look? text pos = some .nothing) : next? text pos = some none := by
  rw [next?]
  grind

theorem next?_of_found (h : look? text pos = some (.found id next)) :
    next? text pos = some (some (id, next)) := by
  rw [next?]
  grind

theorem next?_of_skipped (h : look? text pos = some (.skipped next)) :
    next? text pos = next? text next := by
  rw [next?]
  grind

theorem lt_of_next? (h : next? text pos = some (some (id, next))) :
    pos < next ∧ pos < text.utf8ByteSize := by
  induction pos using next?.induct text with
  | case1 pos hlook =>
    rw [next?] at h
    grind
  | case2 pos hlook =>
    rw [next?_of_nothing hlook] at h
    cases h
  | case3 pos id' next' hlook =>
    rw [next?_of_found hlook] at h
    cases h
    exact lt_of_look?_found hlook
  | case4 pos next' hlook hlt ih =>
    rw [next?_of_skipped hlook] at h
    exact ⟨hlt.1.trans (ih h).1, hlt.2⟩

end Next

/-- The references from byte `pos` on. -/
def ids? (text : String) (pos : Nat) : Option (List String) :=
  match h : next? text pos with
  | none => none
  | some none => some []
  | some (some (id, next)) =>
    have := lt_of_next? h
    (ids? text next).map (id :: ·)
termination_by text.utf8ByteSize - pos

section Ids

variable {text id : String} {pos next : Nat}

theorem ids?_of_nothing (h : look? text pos = some .nothing) : ids? text pos = some [] := by
  have hnext := next?_of_nothing h
  rw [ids?]
  grind

theorem ids?_of_found (h : look? text pos = some (.found id next)) :
    ids? text pos = (ids? text next).map (id :: ·) := by
  have hnext := next?_of_found h
  rw [ids?]
  grind

theorem ids?_of_skipped (h : look? text pos = some (.skipped next)) :
    ids? text pos = ids? text next := by
  have hnext := next?_of_skipped h
  rw [ids?, ids?]
  grind

end Ids

/-! ### The cursor stands between characters -/

theorem findDollar?_of_notMem {cs : List Char} (h : '$' ∉ cs) :
    findDollar? (String.ofList cs) = none := by
  rw [findDollar?, String.toList_ofList, if_neg h]

theorem findDollar?_append {before : List Char} (h : '$' ∉ before) (rest : List Char) :
    findDollar? (String.ofList (before ++ '$' :: rest)) =
      some (String.ofList before).utf8ByteSize := by
  have hmem : '$' ∈ before ++ '$' :: rest := List.mem_append_right before List.mem_cons_self
  rw [findDollar?, String.toList_ofList, if_pos hmem, inside_append h]

section Cursor

variable (done : String) {before : List Char}

theorem append_dollar (before rest : List Char) :
    done ++ String.ofList (before ++ '$' :: rest) =
      done ++ String.ofList before ++ String.singleton '$' ++ String.ofList rest := by
  rw [String.ofList_append, String.ofList_cons, ← String.append_assoc, ← String.append_assoc]

theorem size_dollar (before : List Char) :
    (done ++ String.ofList before ++ String.singleton '$').utf8ByteSize =
      done.utf8ByteSize + (String.ofList before).utf8ByteSize + 1 := by
  rw [String.utf8ByteSize_append, String.utf8ByteSize_append]
  rfl

theorem look?_of_notMem {cs : List Char} (h : '$' ∉ cs) :
    look? (done ++ String.ofList cs) done.utf8ByteSize = some .nothing := by
  rw [look?, Lexer.slice?_end, Option.bind_some, findDollar?_of_notMem h]

theorem look?_unclosed {opened : List Char} (hbefore : '$' ∉ before) (hopened : '$' ∉ opened) :
    look? (done ++ String.ofList (before ++ '$' :: opened)) done.utf8ByteSize = some .nothing := by
  have hslice := Lexer.slice?_end (done ++ String.ofList before ++ String.singleton '$') opened
  rw [size_dollar, ← append_dollar] at hslice
  rw [look?, Lexer.slice?_end, Option.bind_some, findDollar?_append hbefore]
  simp only [hslice, Option.bind_some, findDollar?_of_notMem hopened]

/-- Behind what stands between two dollar signs, the cursor is in front of the second. -/
theorem look?_candidate {raw : List Char} (rest : List Char) (hbefore : '$' ∉ before)
    (hraw : '$' ∉ raw) :
    ∃ upto, done ++ String.ofList (before ++ '$' :: (raw ++ '$' :: rest)) =
        upto ++ String.ofList ('$' :: rest) ∧
      look? (done ++ String.ofList (before ++ '$' :: (raw ++ '$' :: rest))) done.utf8ByteSize =
        some (.closed upto.utf8ByteSize ((id? raw).map String.ofList)) := by
  have hopened := Lexer.slice?_end (done ++ String.ofList before ++ String.singleton '$')
    (raw ++ '$' :: rest)
  have hinside := Lexer.slice?_chars (done ++ String.ofList before ++ String.singleton '$') raw
    ('$' :: rest) rfl
  rw [size_dollar, ← append_dollar] at hopened hinside
  refine ⟨done ++ String.ofList before ++ String.singleton '$' ++ String.ofList raw, ?_, ?_⟩
  · rw [append_dollar, String.ofList_append, ← String.append_assoc]
  · rw [look?, Lexer.slice?_end, Option.bind_some, findDollar?_append hbefore]
    simp only [hopened, Option.bind_some, findDollar?_append hraw, hinside, Lexer.Bytes.id?_ofList,
      Option.map_some]
    rw [String.utf8ByteSize_append, size_dollar]

/-- The cursor finds the ids that are found among the characters. -/
theorem ids?_eq (cs : List Char) :
    ids? (done ++ String.ofList cs) done.utf8ByteSize = some ((scan cs).map String.ofList) := by
  induction cs using induction_candidates generalizing done with
  | none cs hcs =>
    rw [ids?_of_nothing (look?_of_notMem done hcs), scan_of_notMem hcs]
    rfl
  | unclosed before opened hbefore hopened =>
    rw [ids?_of_nothing (look?_unclosed done hbefore hopened), scan_unclosed hbefore hopened]
    rfl
  | reference before raw id rest hbefore hid ih =>
    obtain ⟨upto, htext, hlook⟩ := look?_candidate done rest hbefore (dollar_notMem_of_id? hid)
    rw [hid] at hlook
    have hlater := ih (upto ++ String.singleton '$')
    rw [String.append_assoc, ← String.ofList_cons, ← htext, String.utf8ByteSize_append] at hlater
    rw [ids?_of_found hlook, scan_found rest hbefore hid]
    exact congrArg _ hlater
  | other before raw rest hbefore hraw hid ih =>
    obtain ⟨upto, htext, hlook⟩ := look?_candidate done rest hbefore hraw
    rw [hid] at hlook
    rw [ids?_of_skipped hlook, htext, ih upto, scan_skipped rest hbefore hraw hid]

end Cursor

end Bytes

/-- The scanner comes to an end on every text, takes no piece out of it that begins or ends inside a
character, and finds the ids of the references that are the leftmost ones, one behind the other. -/
theorem ids_leftmost (text : String) :
    Bytes.ids? text 0 = some (ids text) ∧
      ∀ found, ids text = found.map String.ofList ↔ Leftmost text.toList found := by
  constructor
  · have hcursor := Bytes.ids?_eq "" text.toList
    rwa [String.empty_append, String.ofList_toList] at hcursor
  · intro found
    have hinjective : Function.Injective (List.map String.ofList) :=
      List.map_injective_iff.mpr fun _ _ => String.ofList_inj.mp
    rw [ids, hinjective.eq_iff]
    constructor
    · rintro rfl
      exact leftmost_scan text.toList
    · exact (leftmost_scan text.toList).unique

/-- The dollar sign that closes what is no reference may open one; the one that closes a reference
may not. -/
example : ids "é$x$007$L1$ $T02$" = ["7", "T02"] := by
  cbv

end SceneFormula.Reference
