import SceneFormula.Proofs.Lexing.Cursor

/-!
# Texts and their tokens

Where a text can be cut into tokens, the tokens lie in it one after the other, each spelled by the
bytes that it takes up and as long as it can be, and nothing but blanks lies between them.  Where it
cannot, all that stands before the fault can be cut, and no token can be read at the fault.
-/

namespace SceneFormula.Lexer

/-- `Cut text pos ls`: from byte `pos` on, the text consists of the tokens `ls` and of blanks. -/
structure Cut (text : String) (pos : Nat) (ls : List Lexeme) : Prop where
  nonempty : ∀ l ∈ ls, l.start < l.stop
  ordered : ls.Pairwise fun l m => l.stop ≤ m.start
  inBounds : ∀ l ∈ ls, pos ≤ l.start ∧ l.stop ≤ text.utf8ByteSize
  blank : ∀ k, pos ≤ k → (∀ l ∈ ls, k < l.start ∨ l.stop ≤ k) →
    ∀ b ∈ (latin text)[k]?, isBlank b = true
  spelled : ∀ l ∈ ls, ∃ s rest, slice? text l.start l.stop = some s ∧
    slice? text l.stop text.utf8ByteSize = some rest ∧ l.token.Spelled s.toList ∧
    (∀ d ∈ rest.toList.head?, l.token.goesOnWith d = false) ∧
    ∀ (t : Token) (more : List Char), more <+: rest.toList → t.Spelled (s.toList ++ more) →
      more = []

variable {before : String} {c : Char} {cs : List Char} {ls : List Lexeme}

theorem latin_getElem? (hc : c.toNat < 128) :
    (latin (before ++ String.ofList (c :: cs)))[before.utf8ByteSize]? = some c := by
  rw [latin_append, ← length_latin, List.getElem?_append_right le_rfl, Nat.sub_self,
    String.ofList_cons, latin_append, latin_of_lt hc]
  rfl

theorem cut_nil : Cut before before.utf8ByteSize [] where
  nonempty := by simp
  ordered := .nil
  inBounds := by simp
  blank k hk _ b hb := by
    rw [List.getElem?_eq_none (by rwa [length_latin])] at hb
    cases hb
  spelled := by simp

theorem Cut.cons_blank (hc : isBlank c = true)
    (h : Cut (before ++ String.ofList (c :: cs)) (before.utf8ByteSize + 1) ls) :
    Cut (before ++ String.ofList (c :: cs)) before.utf8ByteSize ls where
  nonempty := h.nonempty
  ordered := h.ordered
  inBounds l hl := ⟨Nat.le_of_succ_le (h.inBounds l hl).1, (h.inBounds l hl).2⟩
  blank k hk hout b hb := by
    rcases Nat.eq_or_lt_of_le hk with rfl | hlt
    · rw [latin_getElem? (lt_of_isBlank hc)] at hb
      obtain rfl := Option.some.inj hb
      exact hc
    · exact h.blank k hlt hout b hb
  spelled := h.spelled

theorem Cut.cons_token {t : Token} {ds rest : List Char} (ht : t.Spelled ds)
    (hend : ∀ d ∈ rest.head?, t.goesOnWith d = false)
    (h : Cut (before ++ String.ofList (ds ++ rest)) (before.utf8ByteSize + ds.length) ls) :
    Cut (before ++ String.ofList (ds ++ rest)) before.utf8ByteSize
      (⟨t, before.utf8ByteSize, before.utf8ByteSize + ds.length⟩ :: ls) := by
  have hsize := utf8ByteSize_ofList (lt_of_spelled ht)
  have hslice := slice?_ascii before ds rest (lt_of_spelled ht)
  have hafter := slice?_end (before ++ String.ofList ds) rest
  rw [String.append_assoc, ← String.ofList_append, String.utf8ByteSize_append, hsize] at hafter
  have hlt : before.utf8ByteSize < before.utf8ByteSize + ds.length := by
    obtain ⟨c, cs, rfl, -⟩ := ht.exists_cons
    rw [List.length_cons]
    omega
  constructor
  · exact List.forall_mem_cons.mpr ⟨hlt, h.nonempty⟩
  · exact List.pairwise_cons.mpr ⟨fun l hl => (h.inBounds l hl).1, h.ordered⟩
  · refine List.forall_mem_cons.mpr ⟨⟨le_rfl, ?_⟩, fun l hl => ?_⟩
    · rw [String.utf8ByteSize_append, String.ofList_append, String.utf8ByteSize_append, hsize]
      show before.utf8ByteSize + ds.length ≤ _
      omega
    · exact ⟨hlt.le.trans (h.inBounds l hl).1, (h.inBounds l hl).2⟩
  · intro k hk hout b hb
    obtain ⟨hthis, hout⟩ := List.forall_mem_cons.mp hout
    exact h.blank k (hthis.resolve_left hk.not_gt) hout b hb
  · refine List.forall_mem_cons.mpr ⟨⟨_, _, hslice, hafter, ?_⟩, h.spelled⟩
    simp only [String.toList_ofList]
    refine ⟨ht, hend, fun u more hmore hu => ?_⟩
    refine eq_nil_of_spelled_append ht (fun d hd => hend d ?_) hu
    obtain ⟨tail, rfl⟩ := hmore
    rw [List.head?_append, Option.mem_def.mp hd]
    rfl

theorem Lexed.cut {pos : Nat} (h : Lexed pos cs ls) (hpos : pos = before.utf8ByteSize) :
    Cut (before ++ String.ofList cs) pos ls := by
  induction h generalizing before with
  | nil =>
    subst hpos
    simpa using cut_nil
  | @blank _ c cs ls hc _ ih =>
    subst hpos
    have hsize : before.utf8ByteSize + 1 = (before ++ String.singleton c).utf8ByteSize := by
      rw [String.utf8ByteSize_append, String.utf8ByteSize_singleton,
        utf8Size_of_lt (lt_of_isBlank hc)]
    have hcut := ih hsize
    rw [String.append_assoc, ← String.ofList_cons] at hcut
    exact hcut.cons_blank hc
  | @token _ t ds cs ls ht hend _ ih =>
    subst hpos
    have hsize : before.utf8ByteSize + ds.length =
        (before ++ String.ofList ds).utf8ByteSize := by
      rw [String.utf8ByteSize_append, utf8ByteSize_ofList (lt_of_spelled ht)]
    have hcut := ih hsize
    rw [String.append_assoc, ← String.ofList_append] at hcut
    exact hcut.cons_token ht hend

theorem cut_of_ofText? {text : String} (h : Lexeme.ofText? text = .ok ls) : Cut text 0 ls := by
  have hlexed : Lexed 0 text.toList ls := lexed_of_lexemes h
  have hcut : Cut ("" ++ String.ofList text.toList) 0 ls := hlexed.cut rfl
  rwa [String.ofList_toList, String.empty_append] at hcut

/-- What stands before the fault can be cut into tokens: the last of them does not depend on what
follows. -/
theorem unreadable_of_lexemes {pos : Nat} {e : SyntaxError} (h : lexemes pos cs = .error e) :
    ∃ taken rest ls, cs = taken ++ rest ∧ e.offset = pos + (String.ofList taken).utf8ByteSize ∧
      lexemes pos taken = .ok ls ∧ Unreadable e.fault rest := by
  induction pos, cs using lexemes.induct generalizing e with
  | case1 pos =>
    rw [lexemes] at h
    cases h
  | case2 pos c cs hblank ih =>
    rw [lexemes, if_pos hblank] at h
    obtain ⟨taken, rest, ls, rfl, hoffset, hok, hrest⟩ := ih h
    refine ⟨c :: taken, rest, ls, rfl, ?_, by rw [lexemes, if_pos hblank, hok], hrest⟩
    rw [hoffset, String.ofList_cons, String.utf8ByteSize_append, String.utf8ByteSize_singleton,
      utf8Size_of_lt (lt_of_isBlank hblank), Nat.add_assoc]
  | case3 pos c cs hblank fault hfault =>
    rw [lexemes, if_neg hblank, hfault] at h
    cases h
    refine ⟨[], c :: cs, [], rfl, rfl, by rw [lexemes], ?_⟩
    exact unreadable_of_token (by simpa using hblank) hfault
  | case4 pos c cs hblank t n ht e' hfail ih =>
    rw [lexemes, if_neg hblank, ht] at h
    simp only [hfail] at h
    cases h
    obtain ⟨taken, rest, ls, hcs, hoffset, hok, hrest⟩ := ih hfail
    obtain ⟨ds, tail, rfl, rfl, hspelled, hgoes⟩ := spelled_of_token ht
    rw [List.drop_left] at hcs
    subst hcs
    have htaken : ∀ d ∈ taken.head?, t.goesOnWith d = false := by
      intro d hd
      exact hgoes d (by rw [List.head?_append, Option.mem_def.mp hd]; rfl)
    refine ⟨c :: ds ++ taken, rest, ⟨t, pos, pos + ds.length + 1⟩ :: ls, by simp, ?_, ?_, hrest⟩
    · rw [hoffset, String.ofList_append, String.utf8ByteSize_append,
        utf8ByteSize_ofList (lt_of_spelled hspelled), List.length_cons]
      omega
    · have hlater : lexemes (pos + ds.length + 1) ((ds ++ taken).drop ds.length) = .ok ls := by
        rw [List.drop_left, hok]
      exact lexemes_of_token (by simpa using hblank) (hspelled.token_eq htaken) hlater
  | case5 pos c cs hblank t n ht later hok ih =>
    rw [lexemes, if_neg hblank, ht] at h
    simp only [hok] at h
    cases h

/-- Every text is cut into tokens or has a fault.  A cursor over its bytes, which never asks for a
piece that begins or ends inside a character, comes to the same end.  The tokens lie in order within
the text, spelled by their bytes, each as long as it can be, with only blanks between them; all that
stands before a fault can be cut into tokens, and none can be read at the fault. -/
theorem ofText?_cut_or_unreadable (text : String) :
    Bytes.lexemes? text 0 = some ((Lexeme.ofText? text).map (marks text)) ∧
      match Lexeme.ofText? text with
      | .ok ls => Cut text 0 ls
      | .error e => ∃ taken rest ls, text = taken ++ rest ∧ taken.utf8ByteSize = e.offset ∧
          Lexeme.ofText? taken = .ok ls ∧ Unreadable e.fault rest.toList := by
  constructor
  · have heq := Bytes.lexemes?_eq "" 0 text.toList rfl
    rwa [String.ofList_toList, String.empty_append] at heq
  · split
    next ls hls => exact cut_of_ofText? hls
    next e he =>
      obtain ⟨taken, rest, ls, htext, hoffset, hok, hrest⟩ := unreadable_of_lexemes he
      refine ⟨String.ofList taken, String.ofList rest, ls, ?_, ?_, ?_, ?_⟩
      · rw [← String.ofList_append, ← htext, String.ofList_toList]
      · rw [hoffset, Nat.zero_add]
      · rw [Lexeme.ofText?, String.toList_ofList, hok]
      · rwa [String.toList_ofList]

/-- A single equality sign is no token. -/
example : Lexeme.ofText? "1 = 2" = .error ⟨2, .unexpectedCharacter '='⟩ := by cbv

end SceneFormula.Lexer
