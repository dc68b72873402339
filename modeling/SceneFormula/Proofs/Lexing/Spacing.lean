import SceneFormula.Proofs.Lexing
import SceneFormula.Proofs.Parsing

/-!
# Blanks between tokens

Tokens that are written one after the other, with blanks between them, are had back from the text,
however each of them is spelled.  In a text that is already cut into tokens, more blanks may be put
in wherever no token is cut: the tokens stay the same, and so does the formula that they spell.
-/

namespace SceneFormula

open Lexer (isBlank lexemes)

/-- A token as it stands in a text: one of its spellings, and the blanks after it. -/
structure Written where
  token : Token
  letters : List Char
  gap : List Char
  spelled : token.Spelled letters
  blank : ∀ c ∈ gap, isBlank c = true

/-- A text made of tokens and their gaps. -/
def Written.text (parts : List Written) : List Char :=
  parts.flatMap fun p => p.letters ++ p.gap

/-- Byte `k` is where a token begins or ends, or the end of the text. -/
def IsBoundary (text : String) (ls : List Lexeme) (k : Nat) : Prop :=
  ∃ m ∈ marks text ls, k = m.start ∨ k = m.stop

/-- `Respaced text text'`: blanks have been put into a text, at a place where one of its tokens
begins or ends. -/
inductive Respaced : String → String → Prop
  | blanks {a b : String} {ls : List Lexeme} {gap : List Char}
      (hls : Lexeme.ofText? (a ++ b) = .ok ls) (hplace : IsBoundary (a ++ b) ls a.utf8ByteSize)
      (hgap : ∀ c ∈ gap, isBlank c = true) : Respaced (a ++ b) (a ++ String.ofList gap ++ b)

/-! ### Texts as tokens and blanks -/

namespace Lexes

variable {ts us : List Token} {cs ds gap : List Char}

theorem append_blanks (hgap : ∀ c ∈ gap, isBlank c = true) (h : Lexes ts cs) :
    Lexes ts (gap ++ cs) := by
  induction gap with
  | nil => exact h
  | cons c gap ih =>
    obtain ⟨hc, hgap⟩ := List.forall_mem_cons.mp hgap
    exact .blank hc (ih hgap)

theorem lt_of_mem (h : Lexes ts cs) : ∀ c ∈ cs, c.toNat < 128 := by
  induction h with
  | nil => simp
  | blank hc _ ih => exact List.forall_mem_cons.mpr ⟨Lexer.lt_of_isBlank hc, ih⟩
  | token ht _ _ ih =>
    intro c hc
    exact (List.mem_append.mp hc).elim (Lexer.lt_of_spelled ht c) (ih c)

/-- No token goes on with a blank, so blanks keep two texts apart. -/
theorem append (hgap : ∀ c ∈ gap, isBlank c = true) (hne : gap ≠ []) (h : Lexes ts cs)
    (hds : Lexes us ds) : Lexes (ts ++ us) (cs ++ (gap ++ ds)) := by
  induction h with
  | nil =>
    have hfront := hds.append_blanks hgap
    simpa using hfront
  | blank hc _ ih => exact .blank hc ih
  | @token t ts es cs ht hend _ ih =>
    rw [List.cons_append, List.append_assoc]
    refine .token ht (fun d hd => ?_) ih
    cases cs with
    | nil =>
      obtain ⟨b, gap, rfl⟩ := List.exists_cons_of_ne_nil hne
      obtain rfl : b = d := Option.some.inj hd
      exact Token.goesOnWith_of_isBlank (hgap b List.mem_cons_self)
    | cons c cs => exact hend d hd

end Lexes

/-- A text is cut in two at a place that lies in no token. -/
theorem Lexer.Lexed.exists_split {pos : Nat} {cs ds : List Char} {ls : List Lexeme}
    (h : Lexed pos (cs ++ ds) ls)
    (hplace : ∀ l ∈ ls, pos + cs.length ≤ l.start ∨ l.stop ≤ pos + cs.length) :
    ∃ ts us, ls.map Lexeme.token = ts ++ us ∧ Lexes ts cs ∧ Lexes us ds := by
  generalize htext : cs ++ ds = text at h
  induction h generalizing cs with
  | nil =>
    obtain ⟨rfl, rfl⟩ := List.append_eq_nil_iff.mp htext
    exact ⟨[], [], rfl, .nil, .nil⟩
  | @blank pos c rest ls hc h ih =>
    cases cs with
    | nil =>
      rw [List.nil_append] at htext
      exact ⟨[], _, rfl, .nil, htext ▸ .blank hc h.lexes⟩
    | cons c' cs =>
      obtain ⟨rfl, hrest⟩ := List.cons.inj htext
      simp only [List.length_cons, Nat.add_comm cs.length, ← Nat.add_assoc] at hplace
      obtain ⟨ts, us, htokens, hts, hus⟩ := ih hplace hrest
      exact ⟨ts, us, htokens, .blank hc hts, hus⟩
  | @token pos t es rest ls ht hend h ih =>
    obtain ⟨hthis, hlater⟩ := List.forall_mem_cons.mp hplace
    rcases List.append_eq_append_iff.mp htext with ⟨m, hm, hds⟩ | ⟨m, hm, hrest⟩
    · -- The token begins before the place, or else it ends there.
      subst hm hds
      simp only [List.length_append] at hthis
      rcases hthis with hle | hle
      · obtain rfl : cs = [] := List.length_eq_zero_iff.mp (by omega)
        exact ⟨[], _, rfl, .nil, by simpa using Lexes.token ht hend h.lexes⟩
      · obtain rfl : m = [] := List.length_eq_zero_iff.mp (by omega)
        rw [List.append_nil] at ht
        refine ⟨[t], _, rfl, ?_, h.lexes⟩
        have hlast : Lexes [t] (cs ++ []) :=
          .token ht (fun d (hd : d ∈ ([] : List Char).head?) => nomatch hd) .nil
        rwa [List.append_nil] at hlast
    · subst hm
      simp only [List.length_append, ← Nat.add_assoc] at hlater
      obtain ⟨ts, us, htokens, hts, hus⟩ := ih hlater hrest.symm
      refine ⟨t :: ts, us, by rw [List.map_cons, htokens, List.cons_append], .token ht ?_ hts, hus⟩
      intro d hd
      refine hend d ?_
      rw [hrest, List.head?_append, Option.mem_def.mp hd]
      rfl

/-! ### More blanks -/

/-- Of two tokens in a text, one ends before the other begins. -/
theorem Lexer.Cut.apart {text : String} {pos : Nat} {ls : List Lexeme} (h : Cut text pos ls) :
    ∀ l ∈ ls, ∀ m ∈ ls, l = m ∨ l.stop ≤ m.start ∨ m.stop ≤ l.start := by
  have hleft : ls.Pairwise fun l m => l = m ∨ l.stop ≤ m.start ∨ m.stop ≤ l.start :=
    h.ordered.imp fun hlm => Or.inr (Or.inl hlm)
  have hright : ls.Pairwise fun m l => l = m ∨ l.stop ≤ m.start ∨ m.stop ≤ l.start :=
    h.ordered.imp fun hml => Or.inr (Or.inr hml)
  have hself : ∀ l ∈ ls, l = l ∨ l.stop ≤ l.start ∨ l.stop ≤ l.start := fun _ _ => .inl rfl
  intro l hl m hm
  exact List.Pairwise.forall_of_forall_of_flip (R := fun l m => l = m ∨ l.stop ≤ m.start ∨
    m.stop ≤ l.start) hself hleft hright hl hm

/-- No token is cut where one of them begins or ends. -/
theorem Lexer.Cut.uncut {text : String} {ls : List Lexeme} (h : Cut text 0 ls) {k : Nat}
    (hk : IsBoundary text ls k) : ∀ l ∈ ls, k ≤ l.start ∨ l.stop ≤ k := by
  intro l hl
  obtain ⟨mark, hmark, hk⟩ := hk
  rcases List.mem_append.mp hmark with hmark | hmark
  · obtain ⟨m, hm, rfl⟩ := List.mem_map.mp hmark
    change k = m.start ∨ k = m.stop at hk
    have hlt := h.nonempty m hm
    rcases h.apart l hl m hm with rfl | hlm | hml
    · exact hk.imp Eq.le Eq.ge
    · exact .inr (by omega)
    · exact .inl (by omega)
  · obtain rfl := List.mem_singleton.mp hmark
    change k = text.utf8ByteSize ∨ k = text.utf8ByteSize at hk
    have hbound := (h.inBounds l hl).2
    exact .inr (by omega)

namespace Respaced

variable {text text' : String} {ls : List Lexeme}

theorem exists_lexemes (h : Respaced text text') (hls : Lexeme.ofText? text = .ok ls) :
    ∃ ls', Lexeme.ofText? text' = .ok ls' ∧ ls'.map Lexeme.token = ls.map Lexeme.token := by
  cases h with
  | @blanks a b ls' gap hls' hplace hgap =>
    obtain rfl : ls' = ls := Except.ok.inj (hls'.symm.trans hls)
    have huncut := (Lexer.cut_of_ofText? hls).uncut hplace
    have hlexed : Lexer.Lexed 0 (a.toList ++ b.toList) ls' := by
      rw [← String.toList_append]
      exact Lexer.lexed_of_lexemes hls
    have hsize : a.utf8ByteSize = 0 + a.toList.length := by
      have hascii : ∀ c ∈ a.toList, c.toNat < 128 :=
        fun c hc => hlexed.lexes.lt_of_mem c (List.mem_append_left _ hc)
      rw [Nat.zero_add, ← Lexer.utf8ByteSize_ofList hascii, String.ofList_toList]
    rw [hsize] at huncut
    obtain ⟨ts, us, htokens, hts, hus⟩ := hlexed.exists_split huncut
    rw [Lexeme.ofText?, String.toList_append, String.toList_append, String.toList_ofList,
      List.append_assoc, htokens]
    by_cases hne : gap = []
    · rw [hne, List.nil_append, ← htokens]
      exact hlexed.lexes.exists_lexemes 0
    · exact (hts.append hgap hne hus).exists_lexemes 0

/-- However often blanks are put in, the tokens stay the same. -/
theorem exists_lexemes_of_reflTransGen (h : Relation.ReflTransGen Respaced text text')
    (hls : Lexeme.ofText? text = .ok ls) :
    ∃ ls', Lexeme.ofText? text' = .ok ls' ∧ ls'.map Lexeme.token = ls.map Lexeme.token := by
  induction h with
  | refl => exact ⟨ls, hls, rfl⟩
  | tail _ hstep ih =>
    obtain ⟨ms, hms, htokens⟩ := ih
    obtain ⟨ls', hls', htokens'⟩ := hstep.exists_lexemes hms
    exact ⟨ls', hls', htokens'.trans htokens⟩

end Respaced

theorem Written.lexes {parts : List Written} (h : ∀ p ∈ parts.dropLast, p.gap ≠ []) :
    Lexes (parts.map Written.token) (Written.text parts) := by
  induction parts with
  | nil => exact .nil
  | cons p parts ih =>
    have hparts : ∀ q ∈ parts.dropLast, q.gap ≠ [] := by
      intro q hq
      cases parts with
      | nil => cases hq
      | cons r parts => exact h q (List.mem_cons_of_mem p hq)
    have hrest : Lexes (parts.map Written.token) (p.gap ++ text parts) :=
      (ih hparts).append_blanks p.blank
    have hend : ∀ d ∈ (p.gap ++ text parts).head?, p.token.goesOnWith d = false := by
      intro d hd
      cases hgap : p.gap with
      | cons b gap =>
        rw [hgap] at hd
        obtain rfl : b = d := Option.some.inj hd
        exact Token.goesOnWith_of_isBlank (p.blank b (hgap ▸ List.mem_cons_self))
      | nil =>
        cases parts with
        | nil =>
          rw [hgap] at hd
          cases hd
        | cons q parts => exact absurd hgap (h p List.mem_cons_self)
    have hwhole := Lexes.token p.spelled hend hrest
    rwa [← List.append_assoc] at hwhole

/-- Tokens that are written with blanks between them are had back, and blanks that are put into a
text where its tokens begin or end change neither the tokens nor the formula that they spell. -/
theorem lexemes_of_spacing :
    (∀ (lead : List Char) (parts : List Written), (∀ c ∈ lead, isBlank c = true) →
      (∀ p ∈ parts.dropLast, p.gap ≠ []) →
      ∃ ls, Lexeme.ofText? (String.ofList (lead ++ Written.text parts)) = .ok ls ∧
        ls.map Lexeme.token = parts.map Written.token) ∧
    ∀ (text text' : String) (ls : List Lexeme), Lexeme.ofText? text = .ok ls →
      Relation.ReflTransGen Respaced text text' →
      ∃ ls', Lexeme.ofText? text' = .ok ls' ∧ ls'.map Lexeme.token = ls.map Lexeme.token ∧
        ∀ e, Expr.ofText? text' = .ok e ↔ Expr.ofText? text = .ok e := by
  constructor
  · intro lead parts hlead hgaps
    have hlexes := (Written.lexes hgaps).append_blanks hlead
    rw [Lexeme.ofText?, String.toList_ofList]
    exact hlexes.exists_lexemes 0
  · intro text text' ls hls h
    obtain ⟨ls', hls', htokens⟩ := Respaced.exists_lexemes_of_reflTransGen h hls
    refine ⟨ls', hls', htokens, fun e => ?_⟩
    rw [Expr.ofText?_eq_ok_iff hls', Expr.ofText?_eq_ok_iff hls, htokens]

theorem lexemes_of_spacing_sum :
    (∃ ls, Lexeme.ofText? " 007\t+ $05$" = .ok ls ∧
      ls.map Lexeme.token = [.number 7, .plus, .reference "5"]) ∧
    ∃ ls, Lexeme.ofText? "7 +$5$" = .ok ls ∧
      ls.map Lexeme.token = [.number 7, .plus, .reference "5"] ∧
        ∀ e, Expr.ofText? "7 +$5$" = .ok e ↔ Expr.ofText? "7+$5$" = .ok e := by
  constructor
  · let parts : List Written :=
      [⟨.number 7, ['0', '0', '7'], ['\t'], .number rfl rfl, List.all_eq_true.mp rfl⟩,
        ⟨.plus, ['+'], [' '], .fixed rfl, List.all_eq_true.mp rfl⟩,
        ⟨.reference "5", ['$', '0', '5', '$'], [], @Token.Spelled.reference ['0', '5'] ['5'] rfl,
          List.all_eq_true.mp rfl⟩]
    have hgaps : ∀ p ∈ parts.dropLast, p.gap ≠ [] := by simp [parts]
    exact lexemes_of_spacing.1 [' '] parts (List.all_eq_true.mp rfl) hgaps
  · have hls : Lexeme.ofText? ("7" ++ "+$5$") =
        .ok [⟨.number 7, 0, 1⟩, ⟨.plus, 1, 2⟩, ⟨.reference "5", 2, 5⟩] := by
      cbv
    have hplace : IsBoundary ("7" ++ "+$5$")
        [⟨.number 7, 0, 1⟩, ⟨.plus, 1, 2⟩, ⟨.reference "5", 2, 5⟩] "7".utf8ByteSize :=
      ⟨_, List.mem_cons_self, .inr rfl⟩
    have hstep : Respaced ("7" ++ "+$5$") ("7" ++ String.ofList [' '] ++ "+$5$") :=
      .blanks hls hplace (List.all_eq_true.mp rfl)
    exact lexemes_of_spacing.2 _ _ _ hls (.single hstep)

end SceneFormula
