import SceneFormula.Proofs.References
import Mathlib.Data.List.Chain
import Mathlib.Tactic

/-!
# Spelling tokens

A text spells tokens if their spellings stand in it in order, with blanks between them or none.  It
is cut into just these tokens again, provided that no token would go on with the first character of
the next one.
-/

namespace SceneFormula

open Lexer (isBlank isWordStart isWordChar)

namespace Token

def spelling : Token → List Char
  | number n => Nat.toDigits 10 n.toNatClampNeg
  | ident name => name.toList
  | reference id => '$' :: (id.toList ++ ['$'])
  | truth true => ['t', 'r', 'u', 'e']
  | truth false => ['f', 'a', 'l', 's', 'e']
  | leftParen => ['(']
  | rightParen => [')']
  | comma => [',']
  | plus => ['+']
  | minus => ['-']
  | star => ['*']
  | slash => ['/']
  | percent => ['%']
  | bang => ['!']
  | tilde => ['~']
  | equal => ['=', '=']
  | notEqual => ['!', '=']
  | less => ['<']
  | lessEqual => ['<', '=']
  | greater => ['>']
  | greaterEqual => ['>', '=']
  | shiftLeft => ['<', '<']
  | shiftRight => ['>', '>']
  | ampersand => ['&']
  | pipe => ['|']
  | caret => ['^']
  | andAnd => ['&', '&']
  | orOr => ['|', '|']

/-- There is a text that spells the token. -/
def HasSpelling : Token → Prop
  | number n => 0 ≤ n
  | ident name =>
    (∃ c cs, name.toList = c :: cs ∧ isWordStart c = true ∧ ∀ d ∈ cs, isWordChar d = true) ∧
      ofWord name.toList = ident name
  | reference id => Reference.IsId id.toList
  | _ => True

/-- The token has one spelling only. -/
def isFixed : Token → Bool
  | number _ => false
  | ident _ => false
  | reference _ => false
  | _ => true

/-- `t.Spelled cs`: the characters `cs` are a spelling of the token `t`.  A number may have leading
zeros, and a reference may be any that denotes the id. -/
inductive Spelled : Token → List Char → Prop
  | number {n : Int64} {ds : List Char} (hds : Reference.isNumeral ds = true)
      (hn : n.toInt = Nat.ofDigitChars 10 ds 0) : Spelled (.number n) ds
  | ident {c : Char} {cs : List Char} (hc : isWordStart c = true)
      (hcs : ∀ d ∈ cs, isWordChar d = true) (hyes : c :: cs ≠ ['t', 'r', 'u', 'e'])
      (hno : c :: cs ≠ ['f', 'a', 'l', 's', 'e']) :
      Spelled (.ident (String.ofList (c :: cs))) (c :: cs)
  | reference {inside id : List Char} (hid : Reference.id? inside = some id) :
      Spelled (.reference (String.ofList id)) ('$' :: (inside ++ ['$']))
  | fixed {t : Token} (ht : t.isFixed = true) : Spelled t t.spelling

/-- A text that goes on with `d` after the spelling of the token may spell another token. -/
def goesOnWith : Token → Char → Bool
  | number _, d => d.isDigit
  | ident _, d => isWordChar d
  | truth _, d => isWordChar d
  | reference _, _ => false
  | t, d =>
    match t.spelling with
    | [c] => (ofSigns? c d).isSome
    | _ => false

/-- The spelling of the second token may stand right after that of the first. -/
def MayPrecede (t u : Token) : Prop := ∀ d ∈ u.spelling.head?, t.goesOnWith d = false

end Token

/-- `Spells ts cs`: the text `cs` consists of the spellings of the tokens `ts` and of blanks between
them. -/
inductive Spells : List Token → List Char → Prop
  | nil : Spells [] []
  | blank {c : Char} {ts : List Token} {cs : List Char} (hc : isBlank c = true)
      (h : Spells ts cs) : Spells ts (c :: cs)
  | token {ts : List Token} {cs : List Char} (t : Token) (h : Spells ts cs) :
      Spells (t :: ts) (t.spelling ++ cs)

theorem spells_flatMap_spelling (ts : List Token) : Spells ts (ts.flatMap Token.spelling) := by
  induction ts with
  | nil => exact .nil
  | cons t ts ih => exact .token t ih

/-! ### One token -/

namespace Lexer

theorem lexemes_of_token {c : Char} {cs : List Char} {t : Token} {n pos : Nat} {ls : List Lexeme}
    (hblank : isBlank c = false) (ht : token c cs = .ok (t, n))
    (hrest : lexemes (pos + n + 1) (cs.drop n) = .ok ls) :
    lexemes pos (c :: cs) = .ok (⟨t, pos, pos + n + 1⟩ :: ls) := by
  rw [lexemes, if_neg (by simp [hblank]), ht]
  simp only [hrest]

theorem takeWhile_append_of_head? {p : Char → Bool} {cs rest : List Char}
    (hcs : ∀ c ∈ cs, p c = true) (hrest : ∀ d ∈ rest.head?, p d = false) :
    (cs ++ rest).takeWhile p = cs := by
  have hnil : rest.takeWhile p = [] := by
    cases rest with
    | nil => rfl
    | cons d ds => rw [List.takeWhile_cons_of_neg (by simp [hrest d rfl])]
  rw [List.takeWhile_append_of_pos hcs, hnil, List.append_nil]

/-- All letters stand after the digits, and so does the underscore. -/
theorem le_of_isWordStart {c : Char} (h : isWordStart c = true) : 'A' ≤ c := by
  rw [isWordStart, Bool.or_eq_true, decide_eq_true_eq] at h
  rcases h with h | rfl
  · rcases (Bool.or_eq_true c.isUpper c.isLower).mp h with hupper | hlower
    · exact (of_decide_eq_true hupper).1
    · have hle : 'a' ≤ c := of_decide_eq_true ((Bool.and_eq_true _ _).mp hlower).1
      exact UInt32.le_trans (by decide) hle
  · decide

theorem isDigit_of_isWordStart {c : Char} (h : isWordStart c = true) : c.isDigit = false := by
  rw [Bool.eq_false_iff]
  intro hdigit
  simp only [Char.isDigit, Bool.and_eq_true, decide_eq_true_eq] at hdigit
  exact absurd (UInt32.le_trans (le_of_isWordStart h) hdigit.2) (by decide)

theorem zero_le_of_isDigit {c : Char} (h : c.isDigit = true) : '0' ≤ c := by
  simp only [Char.isDigit, Bool.and_eq_true, decide_eq_true_eq] at h
  exact h.1

theorem zero_le_of_isWordStart {c : Char} (h : isWordStart c = true) : '0' ≤ c :=
  UInt32.le_trans (by decide) (le_of_isWordStart h)

theorem isWordChar_of_isWordStart {c : Char} (h : isWordStart c = true) : isWordChar c = true := by
  simp only [isWordStart, Bool.or_eq_true] at h
  rcases h with h | h <;> simp [isWordChar, Char.isAlphanum, h]

theorem zero_le_of_isWordChar {c : Char} (h : isWordChar c = true) : '0' ≤ c := by
  simp only [isWordChar, Char.isAlphanum, Bool.or_eq_true, decide_eq_true_eq] at h
  rcases h with (h | h) | rfl
  · exact zero_le_of_isWordStart (by simp [isWordStart, h])
  · exact zero_le_of_isDigit h
  · decide

/-- Blanks stand before all digits and letters. -/
theorem isBlank_of_zero_le {c : Char} (h : '0' ≤ c) : isBlank c = false := by
  rw [Bool.eq_false_iff]
  intro hblank
  simp only [isBlank, Bool.or_eq_true, Bool.and_eq_true, decide_eq_true_eq] at hblank
  rcases hblank with rfl | ⟨-, hle⟩
  · exact absurd h (by decide)
  · exact absurd (UInt32.le_trans h hle) (by decide)

theorem token_number {c : Char} {cs rest : List Char} (hdigits : ∀ d ∈ c :: cs, d.isDigit = true)
    (hmax : Nat.ofDigitChars 10 (c :: cs) 0 ≤ maxInteger)
    (hrest : ∀ d ∈ rest.head?, d.isDigit = false) :
    token c (cs ++ rest) =
      .ok (.number (Int64.ofNat (Nat.ofDigitChars 10 (c :: cs) 0)), cs.length) := by
  obtain ⟨hc, hcs⟩ := List.forall_mem_cons.mp hdigits
  rw [token, if_pos hc, takeWhile_append_of_head? hcs hrest]
  simp only [if_pos hmax]

theorem inside_append_dollar {inside : List Char} (h : ∀ c ∈ inside, c ≠ '$') (rest : List Char) :
    Reference.inside (inside ++ '$' :: rest) = inside := by
  have hne : ∀ c ∈ inside, decide (c ≠ '$') = true := by simpa using h
  rw [Reference.inside, takeWhile_append_of_head? hne (by simp)]

theorem token_reference {inside id : List Char} (hid : Reference.id? inside = some id)
    (rest : List Char) :
    token '$' ((inside ++ ['$']) ++ rest) =
      .ok (.reference (String.ofList id), inside.length + 1) := by
  have hinside : Reference.inside ((inside ++ ['$']) ++ rest) = inside := by
    rw [List.append_assoc]
    exact inside_append_dollar (Reference.ne_dollar_of_id? hid) rest
  have hopen : inside.length ≠ ((inside ++ ['$']) ++ rest).length := by
    simp
  rw [token, if_neg (by decide), if_pos rfl, hinside]
  simp only [if_neg hopen, hid]

theorem token_word {c : Char} {cs rest : List Char} (hc : isWordStart c = true)
    (hcs : ∀ d ∈ cs, isWordChar d = true) (hrest : ∀ d ∈ rest.head?, isWordChar d = false) :
    token c (cs ++ rest) = .ok (Token.ofWord (c :: cs), cs.length) := by
  have hdollar : c ≠ '$' := by
    rintro rfl
    cases hc
  rw [token, if_neg (by simp [isDigit_of_isWordStart hc]), if_neg hdollar, if_pos hc,
    takeWhile_append_of_head? hcs hrest]

theorem token_sign {c : Char} {t : Token} (ht : Token.ofSign? c = some t)
    (hc : c.isDigit = false ∧ c ≠ '$' ∧ isWordStart c = false) {rest : List Char}
    (hrest : ∀ d ∈ rest.head?, (Token.ofSigns? c d).isSome = false) :
    token c rest = .ok (t, 0) := by
  obtain ⟨hdigit, hdollar, hword⟩ := hc
  have htwo : rest.head?.bind (Token.ofSigns? c) = none := by
    cases rest with
    | nil => rfl
    | cons d ds => simpa using hrest d rfl
  rw [token, if_neg (by simp [hdigit]), if_neg hdollar, if_neg (by simp [hword]), htwo, ht]

end Lexer

namespace Token

open Lexer

theorem Spelled.exists_cons {t : Token} {cs : List Char} (h : t.Spelled cs) :
    ∃ c ds, cs = c :: ds ∧ isBlank c = false := by
  cases h with
  | number hds _ =>
    cases cs with
    | nil => cases hds
    | cons c ds =>
      have hc := Reference.isDigit_of_isNumeral hds c List.mem_cons_self
      exact ⟨c, ds, rfl, isBlank_of_zero_le (zero_le_of_isDigit hc)⟩
  | ident hc _ _ _ => exact ⟨_, _, rfl, isBlank_of_zero_le (zero_le_of_isWordStart hc)⟩
  | reference _ => exact ⟨_, _, rfl, rfl⟩
  | fixed ht =>
    cases t with
    | number | ident | reference => cases ht
    | truth b => cases b <;> exact ⟨_, _, rfl, rfl⟩
    | _ => exact ⟨_, _, rfl, rfl⟩

/-- A token is had back from each of its spellings, unless it would go on with what stands after
it. -/
theorem Spelled.token_eq {t : Token} {c : Char} {cs : List Char} (h : t.Spelled (c :: cs))
    {rest : List Char} (hrest : ∀ d ∈ rest.head?, t.goesOnWith d = false) :
    token c (cs ++ rest) = .ok (t, cs.length) := by
  generalize hspelling : c :: cs = spelling at h
  cases h with
  | @number n _ hds hn =>
    subst hspelling
    have hmax : Nat.ofDigitChars 10 (c :: cs) 0 ≤ maxInteger := by
      have hlt := n.toInt_lt
      unfold maxInteger
      omega
    rw [token_number (Reference.isDigit_of_isNumeral hds) hmax hrest, ← Int64.ofInt_eq_ofNat, ← hn,
      Int64.ofInt_toInt]
  | ident hc hcs hyes hno =>
    obtain ⟨rfl, rfl⟩ := List.cons.inj hspelling
    rw [token_word hc hcs hrest, ofWord, if_neg hyes, if_neg hno]
  | reference hid =>
    obtain ⟨rfl, rfl⟩ := List.cons.inj hspelling
    simpa using token_reference hid rest
  | fixed ht =>
    cases t with
    | number | ident | reference => cases ht
    | truth b =>
      cases b <;> obtain ⟨rfl, rfl⟩ := List.cons.inj hspelling <;>
        exact token_word rfl (List.all_eq_true.mp rfl) hrest
    | leftParen | rightParen | comma | plus | minus | star | slash | percent | bang | tilde | less
    | greater | ampersand | pipe | caret =>
      obtain ⟨rfl, rfl⟩ := List.cons.inj hspelling
      exact token_sign rfl (by decide) hrest
    | equal | notEqual | lessEqual | greaterEqual | shiftLeft | shiftRight | andAnd | orOr =>
      obtain ⟨rfl, rfl⟩ := List.cons.inj hspelling
      rfl

theorem HasSpelling.spelled {t : Token} (ht : t.HasSpelling) : t.Spelled t.spelling := by
  cases t with
  | number n =>
    refine .number ?_ ?_
    · have hall : ∀ d ∈ Nat.toDigits 10 n.toNatClampNeg, d.isDigit = true :=
        fun d hd => Nat.isDigit_of_mem_toDigits (by decide) (by decide) hd
      simpa [Reference.isNumeral, spelling] using hall
    · have hmax := n.toNatClampNeg_lt
      have hback := congrArg Int64.toInt (Int64.ofNat_toNatClampNeg n ht)
      rw [Int64.toInt_ofNat_of_lt hmax] at hback
      rw [spelling, Nat.ofDigitChars_ten_toDigits, hback]
  | ident name =>
    obtain ⟨⟨c, cs, hname, hc, hcs⟩, hword⟩ := ht
    have hkey : c :: cs ≠ ['t', 'r', 'u', 'e'] ∧ c :: cs ≠ ['f', 'a', 'l', 's', 'e'] := by
      rw [hname] at hword
      constructor <;> intro h <;> rw [h] at hword <;> cases hword
    have hspelled := Spelled.ident hc hcs hkey.1 hkey.2
    rwa [← hname, String.ofList_toList] at hspelled
  | reference id =>
    have hspelled := Spelled.reference (Reference.id?_of_isId ht)
    rwa [String.ofList_toList] at hspelled
  | _ => exact .fixed rfl

theorem Spelled.hasSpelling {t : Token} {cs : List Char} (h : t.Spelled cs) : t.HasSpelling := by
  cases h with
  | number _ hn =>
    rw [HasSpelling, Int64.le_iff_toInt_le, hn]
    exact Int.natCast_nonneg _
  | @ident c cs hc hcs hyes hno =>
    refine ⟨⟨c, cs, String.toList_ofList, hc, hcs⟩, ?_⟩
    rw [String.toList_ofList, ofWord, if_neg hyes, if_neg hno]
  | reference hid =>
    rw [HasSpelling, String.toList_ofList]
    exact Reference.isId_of_id? hid
  | fixed ht =>
    cases t with
    | number | ident | reference => cases ht
    | _ => trivial

theorem HasSpelling.exists_cons {t : Token} (ht : t.HasSpelling) :
    ∃ c cs, t.spelling = c :: cs := by
  obtain ⟨c, cs, h, -⟩ := ht.spelled.exists_cons
  exact ⟨c, cs, h⟩

/-- The signs that may stand second in a token of two signs. -/
def secondSigns : List Char := ['&', '|', '=', '<', '>']

theorem mem_secondSigns {c d : Char} (h : (ofSigns? c d).isSome = true) : d ∈ secondSigns := by
  unfold ofSigns? at h
  split at h
  case h_9 => cases h
  all_goals decide

theorem not_mem_secondSigns {c : Char} (h : isWordChar c = true) : c ∉ secondSigns := by
  intro hc
  simp only [secondSigns, List.mem_cons, List.not_mem_nil, or_false] at hc
  rcases hc with rfl | rfl | rfl | rfl | rfl <;> cases h

theorem isWordChar_of_isDigit {c : Char} (h : c.isDigit = true) : isWordChar c = true := by
  simp [isWordChar, Char.isAlphanum, h]

/-- The token is spelled by letters and digits. -/
def isWord : Token → Bool
  | number _ => true
  | ident _ => true
  | truth _ => true
  | _ => false

theorem isWordChar_of_goesOnWith {t : Token} (ht : t.isWord = true) {d : Char}
    (h : t.goesOnWith d = true) : isWordChar d = true := by
  cases t with
  | number n => exact isWordChar_of_isDigit h
  | ident name => exact h
  | truth b => exact h
  | _ => cases ht

theorem mem_secondSigns_of_goesOnWith {t : Token} (ht : t.isWord = false) {d : Char}
    (h : t.goesOnWith d = true) : d ∈ secondSigns := by
  cases t with
  | number n => cases ht
  | ident name => cases ht
  | truth b => cases ht
  | bang | less | greater | ampersand | pipe => exact mem_secondSigns h
  | _ => cases h

/-- No token goes on with a blank. -/
theorem goesOnWith_of_isBlank {t : Token} {d : Char} (h : isBlank d = true) :
    t.goesOnWith d = false := by
  rw [Bool.eq_false_iff]
  intro hgoes
  have hd : isBlank d = false := by
    cases ht : t.isWord with
    | true => exact isBlank_of_zero_le (zero_le_of_isWordChar (isWordChar_of_goesOnWith ht hgoes))
    | false =>
      have hall : ∀ d ∈ secondSigns, (!isBlank d) = true := List.all_eq_true.mp rfl
      simpa using hall d (mem_secondSigns_of_goesOnWith ht hgoes)
  rw [hd] at h
  cases h

end Token

/-! ### Texts -/

/-- What stands after the spelling of a token is a blank, or belongs to the next token. -/
theorem Spells.goesOnWith_head? {t : Token} {ts : List Token} {cs : List Char} (h : Spells ts cs)
    (hts : ∀ u ∈ ts, u.HasSpelling) (hchain : (t :: ts).IsChain Token.MayPrecede) :
    ∀ d ∈ cs.head?, t.goesOnWith d = false := by
  intro d hd
  cases h with
  | nil => cases hd
  | @blank c _ _ hc _ =>
    obtain rfl : c = d := Option.some.inj hd
    exact Token.goesOnWith_of_isBlank hc
  | @token us rest u _ =>
    obtain ⟨c, ds, hspelling⟩ := (hts u List.mem_cons_self).exists_cons
    rw [hspelling] at hd
    refine (List.isChain_cons_cons.mp hchain).1 d ?_
    rw [hspelling]
    exact hd

/-- `Lexes ts cs`: the text `cs` consists of blanks and of spellings of the tokens `ts`, each of
which ends where it does not go on. -/
inductive Lexes : List Token → List Char → Prop
  | nil : Lexes [] []
  | blank {c : Char} {ts : List Token} {cs : List Char} (hc : isBlank c = true)
      (h : Lexes ts cs) : Lexes ts (c :: cs)
  | token {t : Token} {ts : List Token} {ds cs : List Char} (ht : t.Spelled ds)
      (hend : ∀ d ∈ cs.head?, t.goesOnWith d = false) (h : Lexes ts cs) : Lexes (t :: ts) (ds ++ cs)

theorem Lexes.exists_lexemes {ts : List Token} {cs : List Char} (h : Lexes ts cs) (pos : Nat) :
    ∃ ls, Lexer.lexemes pos cs = .ok ls ∧ ls.map Lexeme.token = ts := by
  induction h generalizing pos with
  | nil => exact ⟨[], by rw [Lexer.lexemes], rfl⟩
  | blank hc _ ih =>
    obtain ⟨ls, hls, htokens⟩ := ih (pos + 1)
    exact ⟨ls, by rw [Lexer.lexemes, if_pos hc, hls], htokens⟩
  | @token t ts ds cs ht hend _ ih =>
    obtain ⟨c, ds, rfl, hblank⟩ := ht.exists_cons
    obtain ⟨ls, hls, htokens⟩ := ih (pos + ds.length + 1)
    have hrest : Lexer.lexemes (pos + ds.length + 1) ((ds ++ cs).drop ds.length) = .ok ls := by
      rw [List.drop_left, hls]
    exact ⟨_, Lexer.lexemes_of_token hblank (ht.token_eq hend) hrest,
      by rw [List.map_cons, htokens]⟩

theorem Spells.lexes {ts : List Token} {cs : List Char} (h : Spells ts cs)
    (hts : ∀ t ∈ ts, t.HasSpelling) (hchain : ts.IsChain Token.MayPrecede) : Lexes ts cs := by
  induction h with
  | nil => exact .nil
  | blank hc _ ih => exact .blank hc (ih hts hchain)
  | token t hcs ih =>
    obtain ⟨ht, hts⟩ := List.forall_mem_cons.mp hts
    exact .token ht.spelled (hcs.goesOnWith_head? hts hchain)
      (ih hts (List.isChain_cons.mp hchain).2)

/-- A text that spells tokens is cut into these tokens. -/
theorem Spells.exists_lexemes {ts : List Token} {cs : List Char} (h : Spells ts cs)
    (hts : ∀ t ∈ ts, t.HasSpelling) (hchain : ts.IsChain Token.MayPrecede) (pos : Nat) :
    ∃ ls, Lexer.lexemes pos cs = .ok ls ∧ ls.map Lexeme.token = ts :=
  (h.lexes hts hchain).exists_lexemes pos

end SceneFormula
