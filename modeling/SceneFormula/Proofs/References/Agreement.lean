import SceneFormula.Proofs.Lexing
import SceneFormula.Proofs.References.Scanning
import SceneFormula.Text.Parser

/-!
# The scanner beside the lexer

Where a text can be cut into tokens, the scanner and the lexer see the same references.  The scanner
looks for dollar signs only, so it lags behind the lexer by tokens and blanks that hold none.  At
each reference it catches up: both go on from the byte behind the second dollar sign.
-/

namespace SceneFormula

open Lexer (latin slice?)

/-! ### Dollar signs in a token -/

namespace Token

theorem dollar_notMem_spelling {t : Token} (ht : t.isFixed = true) : '$' ∉ t.spelling := by
  cases t with
  | number | ident | reference => cases ht
  | truth b => cases b <;> decide
  | _ => decide

/-- A token is spelled between two dollar signs if it is a reference, and without any if not. -/
theorem Spelled.dollar_cases {t : Token} {ds : List Char} (h : t.Spelled ds) :
    (∃ inside id, t = .reference (String.ofList id) ∧ Reference.id? inside = some id ∧
        ds = '$' :: (inside ++ ['$'])) ∨
      (t.referenceId? = none ∧ '$' ∉ ds) := by
  cases h with
  | number hds _ =>
    refine .inr ⟨rfl, fun hmem => ?_⟩
    exact Lexer.ne_dollar_of_isDigit (Reference.isDigit_of_isNumeral hds _ hmem) rfl
  | @ident c cs hc hcs _ _ =>
    have hword : ∀ d ∈ c :: cs, Lexer.isWordChar d = true :=
      List.forall_mem_cons.mpr ⟨Lexer.isWordChar_of_isWordStart hc, hcs⟩
    exact .inr ⟨rfl, fun hmem => Lexer.ne_dollar_of_isWordChar (hword _ hmem) rfl⟩
  | reference hid => exact .inl ⟨_, _, rfl, hid, rfl⟩
  | fixed ht =>
    refine .inr ⟨?_, dollar_notMem_spelling ht⟩
    cases t with
    | reference => cases ht
    | _ => rfl

/-- The dollar signs of a token are the first and the last character of a reference. -/
theorem Spelled.getElem?_eq_dollar_iff {t : Token} {ds : List Char} (h : t.Spelled ds) (i : Nat) :
    ds[i]? = some '$' ↔ t.referenceId?.isSome = true ∧ (i = 0 ∨ i + 1 = ds.length) := by
  rcases h.dollar_cases with ⟨inside, id, rfl, hid, rfl⟩ | ⟨hnone, hds⟩
  · have hinside := Reference.dollar_notMem_of_id? hid
    cases i with
    | zero => simp [referenceId?]
    | succ i =>
      rw [List.getElem?_cons_succ]
      rcases Nat.lt_trichotomy i inside.length with hlt | rfl | hgt
      · have hne : (inside ++ ['$'])[i]? ≠ some '$' := by
          rw [List.getElem?_append_left hlt]
          exact fun hi => hinside (List.mem_of_getElem? hi)
        simp [hne, hlt.ne]
      · simp [referenceId?]
      · simp [hgt.ne', hgt]
  · have hne : ds[i]? ≠ some '$' := fun hi => hds (List.mem_of_getElem? hi)
    simp [hne, hnone]

end Token

namespace Lexer

/-! ### Dollar signs in a text -/

theorem latin_of_ascii {cs : List Char} (h : ∀ c ∈ cs, c.toNat < 128) :
    latin (String.ofList cs) = cs := by
  induction cs with
  | nil => rfl
  | cons c cs ih =>
    obtain ⟨hc, hcs⟩ := List.forall_mem_cons.mp h
    rw [String.ofList_cons, latin_append, latin_of_lt hc, ih hcs, List.singleton_append]

namespace Cut

variable {text : String} {pos : Nat} {ls : List Lexeme} {l : Lexeme}

/-- The bytes that a token takes up are the characters that spell it. -/
theorem exists_spelling (h : Cut text pos ls) (hl : l ∈ ls) :
    ∃ ds, l.token.Spelled ds ∧ l.stop = l.start + ds.length ∧
      ∀ i < ds.length, (latin text)[l.start + i]? = ds[i]? := by
  obtain ⟨s, -, hslice, -, hspelled, -⟩ := h.spelled l hl
  obtain ⟨a, b, rfl, hstart, hstop⟩ := slice?_eq_some_iff.mp hslice
  have hascii := lt_of_spelled hspelled
  have hlatin : latin s = s.toList := by
    simpa using latin_of_ascii hascii
  have hsize : s.utf8ByteSize = s.toList.length := by
    rw [← hlatin, length_latin]
  refine ⟨s.toList, hspelled, by rw [← hstop, hsize], fun i hi => ?_⟩
  rw [← hlatin] at hi
  rw [latin_append, latin_append, List.append_assoc, ← hstart, ← length_latin,
    List.getElem?_append_right (Nat.le_add_right _ i), Nat.add_sub_cancel_left,
    List.getElem?_append_left hi, hlatin]

/-- No dollar sign stands outside the references. -/
theorem getElem?_eq_dollar_iff (h : Cut text 0 ls) (k : Nat) :
    (latin text)[k]? = some '$' ↔
      ∃ l ∈ ls, l.token.referenceId?.isSome = true ∧ (k = l.start ∨ k + 1 = l.stop) := by
  constructor
  · intro hk
    by_cases htoken : ∃ l ∈ ls, l.start ≤ k ∧ k < l.stop
    · obtain ⟨l, hl, hstart, hstop⟩ := htoken
      obtain ⟨i, rfl⟩ := Nat.exists_eq_add_of_le hstart
      obtain ⟨ds, hspelled, hsize, hbytes⟩ := h.exists_spelling hl
      rw [hbytes i (by omega), hspelled.getElem?_eq_dollar_iff] at hk
      exact ⟨l, hl, hk.1, by omega⟩
    · have hblank := h.blank k (Nat.zero_le k) (fun l hl => ?_) '$' hk
      · cases hblank
      · by_contra hout
        exact htoken ⟨l, hl, by omega⟩
  · rintro ⟨l, hl, href, hk⟩
    have hlt := h.nonempty l hl
    obtain ⟨ds, hspelled, hsize, hbytes⟩ := h.exists_spelling hl
    obtain ⟨i, rfl⟩ : ∃ i, k = l.start + i := Nat.exists_eq_add_of_le (by omega)
    rw [hbytes i (by omega), hspelled.getElem?_eq_dollar_iff]
    exact ⟨href, by omega⟩

end Cut

end Lexer

/-! ### From reference to reference -/

/-- The id of a reference with the byte behind it. -/
def Lexeme.reference? (l : Lexeme) : Option (String × Nat) :=
  l.token.referenceId?.map fun id => (id, l.stop)

namespace Reference.Bytes

/-- `Finds text pos found`: from byte `pos` on, the scanner finds these ids and then no more, and
after each it goes on from the byte that stands with it. -/
inductive Finds (text : String) : Nat → List (String × Nat) → Prop
  | nothing {pos : Nat} (h : next? text pos = some none) : Finds text pos []
  | next {pos next : Nat} {id : String} {found : List (String × Nat)}
      (h : next? text pos = some (some (id, next))) (hrest : Finds text next found) :
      Finds text pos ((id, next) :: found)

end Reference.Bytes

namespace Lexer

open Reference.Bytes (Finds)

section Skipped

variable (done : String) (skipped : List Char)

theorem size_append_ascii {more : List Char} (hmore : ∀ c ∈ more, c.toNat < 128) :
    (done ++ String.ofList skipped).utf8ByteSize + more.length =
      (done ++ String.ofList (skipped ++ more)).utf8ByteSize := by
  rw [String.ofList_append, ← String.append_assoc, String.utf8ByteSize_append (s := _ ++ _),
    utf8ByteSize_ofList hmore]

/-- The scanner goes on behind the second dollar sign. -/
theorem next?_reference {inside id : List Char} (hskipped : '$' ∉ skipped)
    (hid : Reference.id? inside = some id) (rest : List Char) :
    Reference.Bytes.next?
        (done ++ String.ofList (skipped ++ ('$' :: (inside ++ ['$']) ++ rest)))
        done.utf8ByteSize =
      some (some (String.ofList id,
        (done ++ String.ofList (skipped ++ '$' :: (inside ++ ['$']))).utf8ByteSize)) := by
  obtain ⟨upto, htext, hlook⟩ := Reference.Bytes.look?_candidate done rest hskipped
    (Reference.dollar_notMem_of_id? hid)
  have hsplit : skipped ++ ('$' :: (inside ++ ['$']) ++ rest) =
      skipped ++ '$' :: (inside ++ '$' :: rest) := by simp
  have hupto : upto ++ String.singleton '$' =
      done ++ String.ofList (skipped ++ '$' :: (inside ++ ['$'])) := by
    have hchars : (upto ++ String.singleton '$').toList ++ rest =
        (done ++ String.ofList (skipped ++ '$' :: (inside ++ ['$']))).toList ++ rest := by
      simpa using (congrArg String.toList htext).symm
    exact String.toList_inj.mp (List.append_cancel_right hchars)
  rw [hid] at hlook
  rw [hsplit, Reference.Bytes.next?_of_found hlook, ← hupto, String.utf8ByteSize_append]
  rfl

end Skipped

/-- The scanner lags behind the lexer by characters that are no dollar signs, and finds the
references among the tokens that the lexer still has before it. -/
theorem Lexed.finds {pos : Nat} {cs : List Char} {ls : List Lexeme} (h : Lexed pos cs ls)
    (done : String) (skipped : List Char) (hskipped : '$' ∉ skipped)
    (hpos : pos = (done ++ String.ofList skipped).utf8ByteSize) :
    Finds (done ++ String.ofList (skipped ++ cs)) done.utf8ByteSize
      (ls.filterMap Lexeme.reference?) := by
  induction h generalizing done skipped with
  | nil =>
    rw [List.append_nil]
    have hlook := Reference.Bytes.look?_of_notMem done hskipped
    exact .nothing (Reference.Bytes.next?_of_nothing hlook)
  | @blank _ c cs ls hc _ ih =>
    subst hpos
    have hdollar : '$' ∉ skipped ++ [c] := by
      intro hmem
      rcases List.mem_append.mp hmem with hmem | hmem
      · exact hskipped hmem
      · rw [← List.mem_singleton.mp hmem] at hc
        cases hc
    have hascii : ∀ d ∈ [c], d.toNat < 128 := List.forall_mem_singleton.mpr (lt_of_isBlank hc)
    have hlater := ih done (skipped ++ [c]) hdollar (size_append_ascii done skipped hascii)
    rwa [List.append_assoc, List.singleton_append] at hlater
  | @token _ t ds cs ls ht _ _ ih =>
    subst hpos
    have hsize := size_append_ascii done skipped (lt_of_spelled ht)
    rcases ht.dollar_cases with ⟨inside, id, rfl, hid, rfl⟩ | ⟨hnone, hds⟩
    · -- The scanner catches up: behind the reference nothing is skipped.
      have hlater := ih (done ++ String.ofList (skipped ++ '$' :: (inside ++ ['$']))) []
        List.not_mem_nil (by rw [hsize, String.ofList_nil, String.append_empty])
      rw [List.nil_append, String.append_assoc, ← String.ofList_append, List.append_assoc] at hlater
      rw [hsize]
      exact .next (next?_reference done skipped hskipped hid cs) hlater
    · have hdollar : '$' ∉ skipped ++ ds := by
        rw [List.mem_append]
        exact fun hmem => hmem.elim hskipped hds
      have hlater := ih done (skipped ++ ds) hdollar hsize
      have hreference (start stop : Nat) : Lexeme.reference? ⟨t, start, stop⟩ = none := by
        rw [Lexeme.reference?, hnone, Option.map_none]
      rwa [List.append_assoc, ← List.filterMap_cons_none (hreference _ _)] at hlater

end Lexer

namespace Reference

variable {text : String} {ls : List Lexeme}

/-- Where a text can be cut into tokens, whether or not it can then be read as an expression, the
scanner finds the references among the tokens in their order.  It goes from one to the next, each
time from the byte at which the lexer goes on, and no dollar sign of the text stands outside them. -/
theorem ids_eq_of_tokens (h : Lexeme.ofText? text = .ok ls) :
    ids text = ls.filterMap (·.token.referenceId?) ∧
      Bytes.Finds text 0 (ls.filterMap Lexeme.reference?) ∧
      ∀ k, (latin text)[k]? = some '$' ↔
        ∃ l ∈ ls, l.token.referenceId?.isSome = true ∧ (k = l.start ∨ k + 1 = l.stop) := by
  have hlexed : Lexer.Lexed 0 text.toList ls := Lexer.lexed_of_lexemes h
  have hfinds := hlexed.finds "" [] List.not_mem_nil rfl
  rw [List.nil_append, String.ofList_toList, String.empty_append] at hfinds
  have hcut := Lexer.cut_of_ofText? h
  exact ⟨Lexer.scan_eq_filterMap_of_lexemes h, hfinds, hcut.getElem?_eq_dollar_iff⟩

/-- These tokens are no expression. -/
theorem ids_eq_of_tokens_unreadable :
    Lexeme.ofText? "$01$) $L1$$2$" = .ok [⟨.reference "1", 0, 4⟩, ⟨.rightParen, 4, 5⟩,
        ⟨.reference "L1", 6, 10⟩, ⟨.reference "2", 10, 13⟩] ∧
      Expr.ofText? "$01$) $L1$$2$" = .error ⟨4, .expected none (some .rightParen)⟩ ∧
      ids "$01$) $L1$$2$" = ["1", "L1", "2"] ∧
      Bytes.Finds "$01$) $L1$$2$" 0 [("1", 4), ("L1", 10), ("2", 13)] := by
  have hlex : Lexeme.ofText? "$01$) $L1$$2$" = .ok [⟨.reference "1", 0, 4⟩, ⟨.rightParen, 4, 5⟩,
      ⟨.reference "L1", 6, 10⟩, ⟨.reference "2", 10, 13⟩] := by cbv
  obtain ⟨hids, hfinds, -⟩ := ids_eq_of_tokens hlex
  exact ⟨hlex, by cbv, hids, hfinds⟩

end Reference

end SceneFormula
