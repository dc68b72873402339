import SceneFormula.Proofs.Spelling
import Mathlib.Tactic

/-!
# One token

The token that is read at some place is spelled by the characters that it takes, and no more of
them could have been taken.  If none is read, nothing that stands there spells a token.
-/

namespace SceneFormula

open Lexer (isBlank isWordStart isWordChar token maxInteger)

namespace Token

/-! ### Signs -/

theorem eq_spelling_of_ofSign? {c : Char} {t : Token} (h : ofSign? c = some t) :
    t.isFixed = true ∧ [c] = t.spelling := by
  unfold ofSign? at h
  split at h <;> cases h <;> exact ⟨rfl, rfl⟩

theorem eq_spelling_of_ofSigns? {c d : Char} {t : Token} (h : ofSigns? c d = some t) :
    t.isFixed = true ∧ [c, d] = t.spelling := by
  unfold ofSigns? at h
  split at h <;> cases h <;> exact ⟨rfl, rfl⟩

theorem goesOnWith_of_ofSign? {c : Char} {t : Token} (h : ofSign? c = some t) (d : Char) :
    t.goesOnWith d = (ofSigns? c d).isSome := by
  unfold ofSign? at h
  split at h <;> cases h <;> rfl

theorem goesOnWith_of_ofSigns? {c d : Char} {t : Token} (h : ofSigns? c d = some t) (e : Char) :
    t.goesOnWith e = false := by
  unfold ofSigns? at h
  split at h <;> cases h <;> rfl

/-- A token of a fixed spelling is one of the two words, one sign or two signs. -/
theorem spelling_cases {t : Token} (ht : t.isFixed = true) {c : Char} {cs : List Char}
    (h : t.spelling = c :: cs) :
    isWordStart c = true ∨ (cs = [] ∧ ofSign? c = some t) ∨
      ∃ d, cs = [d] ∧ ofSigns? c d = some t := by
  cases t with
  | number | ident | reference => cases ht
  | truth b => cases b <;> obtain ⟨rfl, rfl⟩ := List.cons.inj h <;> exact .inl rfl
  | leftParen | rightParen | comma | plus | minus | star | slash | percent | bang | tilde | less
  | greater | ampersand | pipe | caret =>
    obtain ⟨rfl, rfl⟩ := List.cons.inj h
    exact .inr (.inl ⟨rfl, rfl⟩)
  | equal | notEqual | lessEqual | greaterEqual | shiftLeft | shiftRight | andAnd | orOr =>
    obtain ⟨rfl, rfl⟩ := List.cons.inj h
    exact .inr (.inr ⟨_, rfl, rfl⟩)

/-- A character begins a token only if it is a digit, a letter, an underscore, a dollar sign or a
sign. -/
theorem Spelled.head_cases {t : Token} {c : Char} {cs : List Char} (h : t.Spelled (c :: cs)) :
    c.isDigit = true ∨ isWordStart c = true ∨ c = '$' ∨ (cs = [] ∧ ofSign? c = some t) ∨
      ∃ d, cs = [d] ∧ ofSigns? c d = some t := by
  generalize hspelling : c :: cs = spelling at h
  cases h with
  | number hds _ =>
    exact .inl (Reference.isDigit_of_isNumeral hds c (hspelling ▸ List.mem_cons_self))
  | ident hc _ _ _ =>
    obtain ⟨rfl, -⟩ := List.cons.inj hspelling
    exact .inr (.inl hc)
  | reference _ =>
    obtain ⟨rfl, -⟩ := List.cons.inj hspelling
    exact .inr (.inr (.inl rfl))
  | fixed ht =>
    rcases spelling_cases ht hspelling.symm with h | h | h
    · exact .inr (.inl h)
    · exact .inr (.inr (.inr (.inl h)))
    · exact .inr (.inr (.inr (.inr h)))

theorem spelled_ofWord {c : Char} {cs : List Char} (hc : isWordStart c = true)
    (hcs : ∀ d ∈ cs, isWordChar d = true) : (ofWord (c :: cs)).Spelled (c :: cs) := by
  unfold ofWord
  split
  next h =>
    rw [h]
    exact .fixed (t := .truth true) rfl
  next hyes =>
    split
    next h =>
      rw [h]
      exact .fixed (t := .truth false) rfl
    next hno => exact .ident hc hcs hyes hno

theorem goesOnWith_ofWord (word : List Char) (d : Char) :
    (ofWord word).goesOnWith d = isWordChar d := by
  unfold ofWord
  split
  · rfl
  · split <;> rfl

end Token

namespace Lexer

open Reference (inside fromDollar id?)

/-! ### What a token takes -/

theorem exists_takeWhile (p : Char → Bool) (cs : List Char) :
    ∃ rest, cs = cs.takeWhile p ++ rest ∧ ∀ d ∈ rest.head?, p d = false := by
  refine ⟨cs.dropWhile p, List.takeWhile_append_dropWhile.symm, fun d hd => ?_⟩
  have hnot := List.head?_dropWhile_not p cs
  rwa [Option.mem_def.mp hd] at hnot

theorem exists_inside {cs : List Char} (h : (inside cs).length ≠ cs.length) :
    ∃ rest, cs = inside cs ++ '$' :: rest := by
  obtain ⟨rest, hcs, hrest⟩ := exists_takeWhile (· ≠ '$') cs
  cases rest with
  | nil =>
    rw [List.append_nil] at hcs
    exact absurd (congrArg List.length hcs).symm h
  | cons d rest =>
    obtain rfl : d = '$' := by simpa using hrest d rfl
    exact ⟨rest, hcs⟩

/-- The token that is read is spelled by what it takes, and does not go on after it. -/
theorem spelled_of_token {c : Char} {cs : List Char} {t : Token} {n : Nat}
    (h : token c cs = .ok (t, n)) :
    ∃ ds rest, cs = ds ++ rest ∧ n = ds.length ∧ t.Spelled (c :: ds) ∧
      ∀ d ∈ rest.head?, t.goesOnWith d = false := by
  unfold token at h
  split at h
  next hc =>
    dsimp only at h
    split at h
    next hmax =>
      cases h
      obtain ⟨rest, hcs, hrest⟩ := exists_takeWhile Char.isDigit cs
      refine ⟨_, rest, hcs, rfl, .number ?_ ?_, hrest⟩
      · simp [Reference.isNumeral, hc, List.all_takeWhile]
      · exact Int64.toInt_ofNat_of_lt (by unfold maxInteger at hmax; omega)
    next => cases h
  next =>
    split at h
    next hdollar =>
      dsimp only at h
      split at h
      next => cases h
      next hclosed =>
        split at h
        next id hid =>
          cases h
          obtain ⟨rest, hcs⟩ := exists_inside hclosed
          refine ⟨inside cs ++ ['$'], rest, by simpa using hcs, by simp, ?_, fun _ _ => rfl⟩
          rw [hdollar]
          exact .reference hid
        next => cases h
    next =>
      split at h
      next hc =>
        cases h
        obtain ⟨rest, hcs, hrest⟩ := exists_takeWhile isWordChar cs
        refine ⟨_, rest, hcs, rfl, ?_, ?_⟩
        · exact Token.spelled_ofWord hc (List.all_eq_true.mp List.all_takeWhile)
        · intro d hd
          rw [Token.goesOnWith_ofWord, hrest d hd]
      next =>
        split at h
        next t' htwo =>
          cases h
          obtain ⟨d, hd, hsigns⟩ := Option.bind_eq_some_iff.mp htwo
          obtain ⟨ds, rfl⟩ := List.head?_eq_some_iff.mp hd
          obtain ⟨hfixed, hspelling⟩ := Token.eq_spelling_of_ofSigns? hsigns
          refine ⟨[d], ds, rfl, rfl, ?_, fun e _ => Token.goesOnWith_of_ofSigns? hsigns e⟩
          rw [hspelling]
          exact .fixed hfixed
        next htwo =>
          split at h
          next t' hone =>
            cases h
            obtain ⟨hfixed, hspelling⟩ := Token.eq_spelling_of_ofSign? hone
            refine ⟨[], cs, rfl, rfl, ?_, fun d hd => ?_⟩
            · rw [hspelling]
              exact .fixed hfixed
            · rw [Option.mem_def.mp hd, Option.bind_some] at htwo
              rw [Token.goesOnWith_of_ofSign? hone, htwo]
              rfl
          next => cases h

/-- A token is read exactly where it is spelled and does not go on. -/
theorem token_eq_ok_iff {c : Char} {cs : List Char} {t : Token} {n : Nat} :
    token c cs = .ok (t, n) ↔
      ∃ ds rest, cs = ds ++ rest ∧ n = ds.length ∧ t.Spelled (c :: ds) ∧
        ∀ d ∈ rest.head?, t.goesOnWith d = false := by
  constructor
  · exact spelled_of_token
  · rintro ⟨ds, rest, rfl, rfl, hspelled, hrest⟩
    exact hspelled.token_eq hrest

/-- No token can be spelled by more of a text than the one that does not go on. -/
theorem eq_nil_of_spelled_append {t u : Token} {cs more : List Char} (h : t.Spelled cs)
    (hmore : ∀ d ∈ more.head?, t.goesOnWith d = false) (hu : u.Spelled (cs ++ more)) :
    more = [] := by
  obtain ⟨c, ds, rfl, -⟩ := h.exists_cons
  have hlong : token c ((ds ++ more) ++ []) = .ok (u, (ds ++ more).length) :=
    hu.token_eq fun d (hd : d ∈ ([] : List Char).head?) => nomatch hd
  rw [List.append_nil, h.token_eq hmore] at hlong
  have hlength : ds.length = (ds ++ more).length := (Prod.mk.inj (Except.ok.inj hlong)).2
  simpa using hlength

/-! ### Where no token is read -/

/-- `Unreadable fault cs`: at the front of `cs` no token can be read, for the reason that `fault`
names. -/
inductive Unreadable : SyntaxFault → List Char → Prop
  | integerTooLarge {ds rest : List Char} (hds : Reference.isNumeral ds = true)
      (hrest : ∀ d ∈ rest.head?, d.isDigit = false)
      (hmax : maxInteger < Nat.ofDigitChars 10 ds 0) : Unreadable .integerTooLarge (ds ++ rest)
  | unterminatedReference {cs : List Char} (hcs : ∀ c ∈ cs, c ≠ '$') :
      Unreadable .unterminatedReference ('$' :: cs)
  | invalidReference {inside rest : List Char} (hinside : ∀ c ∈ inside, c ≠ '$')
      (hid : id? inside = none) :
      Unreadable (.invalidReference (String.ofList inside)) ('$' :: inside ++ '$' :: rest)
  | unexpectedCharacter {c : Char} {cs : List Char} (hblank : isBlank c = false) (hc : c ≠ '$')
      (hnone : ∀ (t : Token) (ds : List Char), ds <+: c :: cs → ¬ t.Spelled ds) :
      Unreadable (.unexpectedCharacter c) (c :: cs)

theorem ne_dollar_of_mem_inside (cs : List Char) : ∀ c ∈ inside cs, c ≠ '$' := by
  intro c hc
  simpa using List.all_eq_true.mp List.all_takeWhile c hc

theorem unreadable_of_token {c : Char} {cs : List Char} {fault : SyntaxFault}
    (hblank : isBlank c = false) (h : token c cs = .error fault) : Unreadable fault (c :: cs) := by
  unfold token at h
  split at h
  next hc =>
    dsimp only at h
    split at h
    next => cases h
    next hmax =>
      cases h
      obtain ⟨rest, hcs, hrest⟩ := exists_takeWhile Char.isDigit cs
      have hds : Reference.isNumeral (c :: cs.takeWhile Char.isDigit) = true := by
        simp [Reference.isNumeral, hc, List.all_takeWhile]
      have hunreadable := Unreadable.integerTooLarge hds hrest (Nat.lt_of_not_le hmax)
      rwa [List.cons_append, ← hcs] at hunreadable
  next hdigit =>
    split at h
    next hdollar =>
      subst hdollar
      dsimp only at h
      split at h
      next hopen =>
        cases h
        have hcs : inside cs = cs :=
          (List.takeWhile_prefix _).eq_of_length hopen
        exact .unterminatedReference (hcs ▸ ne_dollar_of_mem_inside cs)
      next hclosed =>
        split at h
        next => cases h
        next hid =>
          cases h
          obtain ⟨rest, hcs⟩ := exists_inside hclosed
          have hunreadable : Unreadable (.invalidReference (String.ofList (inside cs)))
              ('$' :: inside cs ++ '$' :: rest) :=
            .invalidReference (ne_dollar_of_mem_inside cs) hid
          rwa [List.cons_append, ← hcs] at hunreadable
    next hdollar =>
      split at h
      next => cases h
      next hword =>
        split at h
        next => cases h
        next htwo =>
          split at h
          next => cases h
          next hone =>
            cases h
            refine .unexpectedCharacter hblank hdollar fun t ds hds hspelled => ?_
            obtain ⟨c', ds, rfl, -⟩ := hspelled.exists_cons
            obtain ⟨rfl, hprefix⟩ := List.cons_prefix_cons.mp hds
            rcases hspelled.head_cases with hd | hw | hsame | ⟨-, hsign⟩ | ⟨d, rfl, hsigns⟩
            · exact hdigit hd
            · exact hword hw
            · exact hdollar hsame
            · rw [hone] at hsign
              cases hsign
            · obtain ⟨rest, rfl⟩ := hprefix
              simp [hsigns] at htwo

/-! ### Texts -/

/-- `Lexed pos cs ls`: the text `cs`, which begins at byte `pos`, consists of the tokens `ls` and of
blanks. -/
inductive Lexed : Nat → List Char → List Lexeme → Prop
  | nil (pos : Nat) : Lexed pos [] []
  | blank {pos : Nat} {c : Char} {cs : List Char} {ls : List Lexeme} (hc : isBlank c = true)
      (h : Lexed (pos + 1) cs ls) : Lexed pos (c :: cs) ls
  | token {pos : Nat} {t : Token} {ds cs : List Char} {ls : List Lexeme} (ht : t.Spelled ds)
      (hend : ∀ d ∈ cs.head?, t.goesOnWith d = false) (h : Lexed (pos + ds.length) cs ls) :
      Lexed pos (ds ++ cs) (⟨t, pos, pos + ds.length⟩ :: ls)

theorem lexed_of_lexemes {pos : Nat} {cs : List Char} {ls : List Lexeme}
    (h : lexemes pos cs = .ok ls) : Lexed pos cs ls := by
  induction pos, cs using lexemes.induct generalizing ls with
  | case1 pos =>
    rw [lexemes] at h
    cases h
    exact .nil pos
  | case2 pos c cs hblank ih =>
    rw [lexemes, if_pos hblank] at h
    exact .blank hblank (ih h)
  | case3 pos c cs hblank fault hfault =>
    rw [lexemes, if_neg hblank, hfault] at h
    cases h
  | case4 pos c cs hblank t n ht e hrest ih =>
    rw [lexemes, if_neg hblank, ht] at h
    simp only [hrest] at h
    cases h
  | case5 pos c cs hblank t n ht later hrest ih =>
    rw [lexemes, if_neg hblank, ht] at h
    simp only [hrest] at h
    cases h
    obtain ⟨ds, rest, rfl, rfl, hspelled, hend⟩ := spelled_of_token ht
    have hlater := ih hrest
    rw [List.drop_left] at hlater
    exact .token hspelled hend hlater

theorem Lexed.lexes {pos : Nat} {cs : List Char} {ls : List Lexeme} (h : Lexed pos cs ls) :
    Lexes (ls.map Lexeme.token) cs := by
  induction h with
  | nil => exact .nil
  | blank hc _ ih => exact .blank hc ih
  | token ht hend _ ih => exact .token ht hend ih

end Lexer

end SceneFormula
