import SceneFormula.Proofs.Lexing.Places
import SceneFormula.Proofs.Lexing.Tokens

/-!
# Lexing by a cursor

The tokens of a text can be found by a cursor that goes over its bytes, looks at each as at a
character of its own, and takes pieces out of the text between two places.  Such a cursor could stop
inside a character, or ask for a piece that begins or ends in one.  It never does: it always has an
answer, and the answer is the one that is had from the characters.
-/

namespace SceneFormula.Lexer

namespace Bytes

/-- The blanks among the characters of one byte: beyond ASCII, next line and the no-break space. -/
def isSpace (c : Char) : Bool := isBlank c || c = '\u0085' || c = '\u00a0'

/-- The id that the inside of a reference denotes. -/
def id? (raw : String) : Option (Option String) :=
  match latin raw with
  | [] => some none
  | c :: _ =>
    if Reference.isScopeLetter c then
      (slice? raw 1 raw.utf8ByteSize).map fun digits =>
        if Reference.isNumeral (latin digits) then some raw else none
    else some <|
      if Reference.isNumeral (latin raw) then some (String.ofList (Reference.trimZeros raw.toList))
      else none

def twoSigns? (two : String) : Option Token :=
  match two.toList with
  | [c, d] => Token.ofSigns? c d
  | _ => none

/-- The token at byte `i`, where the byte `c` stands before the bytes `cs`, and how many of them it
takes. -/
def token? (text : String) (i : Nat) (c : Char) (cs : List Char) :
    Option (Except SyntaxFault (Token × Nat)) :=
  if c.isDigit then
    let n := (cs.takeWhile Char.isDigit).length
    (slice? text i (i + n + 1)).map fun digits =>
      let value := Nat.ofDigitChars 10 digits.toList 0
      if value ≤ maxInteger then .ok (.number (Int64.ofNat value), n) else .error .integerTooLarge
  else if c = '$' then
    (slice? text (i + 1) text.utf8ByteSize).bind fun opened =>
      let inside := String.ofList (Reference.inside opened.toList)
      if inside = opened then some (.error .unterminatedReference)
      else (slice? text (i + 1) (i + 1 + inside.utf8ByteSize)).bind fun raw =>
        (id? raw).map fun
          | some id => .ok (.reference id, inside.utf8ByteSize + 1)
          | none => .error (.invalidReference raw)
  else if isWordStart c then
    let n := (cs.takeWhile isWordChar).length
    (slice? text i (i + n + 1)).map fun word => .ok (Token.ofWord word.toList, n)
  else match (slice? text i (i + 2)).bind twoSigns? with
    | some t => some (.ok (t, 1))
    | none => match Token.ofSign? c with
      | some t => some (.ok (t, 0))
      | none => (slice? text i text.utf8ByteSize).map fun rest =>
        .error (.unexpectedCharacter (rest.toList.head?.getD c))

/-- The tokens of a text from byte `i` on.  There is no answer if a piece of the text is asked for
that begins or ends inside a character. -/
def lexemes? (text : String) (i : Nat) : Option (Except SyntaxError (List Mark)) :=
  match h : (latin text).drop i with
  | [] => some (.ok [⟨none, text.utf8ByteSize, text.utf8ByteSize⟩])
  | c :: cs =>
    have hi : i < (latin text).length := by
      by_contra hle
      rw [List.drop_of_length_le (Nat.le_of_not_lt hle)] at h
      cases h
    if isSpace c then lexemes? text (i + 1)
    else match token? text i c cs with
      | none => none
      | some (.error fault) => some (.error ⟨i, fault⟩)
      | some (.ok (t, n)) =>
        (lexemes? text (i + n + 1)).map (Except.map (⟨some t, i, i + n + 1⟩ :: ·))
termination_by (latin text).length - i

end Bytes

/-! ### ASCII characters -/

theorem lt_of_le {c d : Char} (h : c ≤ d) (hd : d.toNat < 128) : c.toNat < 128 :=
  Nat.lt_of_le_of_lt (UInt32.le_iff_toNat_le.mp h) hd

theorem lt_of_isWordChar {c : Char} (h : isWordChar c = true) : c.toNat < 128 := by
  simp only [isWordChar, Char.isAlphanum, Char.isAlpha, Char.isUpper, Char.isLower, Char.isDigit,
    Bool.or_eq_true, Bool.and_eq_true, decide_eq_true_eq] at h
  rcases h with ((⟨-, h⟩ | ⟨-, h⟩) | ⟨-, h⟩) | rfl
  · exact lt_of_le (d := 'Z') h (by decide)
  · exact lt_of_le (d := 'z') h (by decide)
  · exact lt_of_le (d := '9') h (by decide)
  · decide

theorem lt_of_isDigit {c : Char} (h : c.isDigit = true) : c.toNat < 128 :=
  lt_of_isWordChar (Token.isWordChar_of_isDigit h)

theorem lt_of_isWordStart {c : Char} (h : isWordStart c = true) : c.toNat < 128 :=
  lt_of_isWordChar (isWordChar_of_isWordStart h)

theorem lt_of_isBlank {c : Char} (h : isBlank c = true) : c.toNat < 128 := by
  simp only [isBlank, Bool.or_eq_true, Bool.and_eq_true, decide_eq_true_eq] at h
  rcases h with rfl | ⟨-, h⟩
  · decide
  · exact lt_of_le h (by decide)

theorem lt_of_ofSign? {c : Char} {t : Token} (h : Token.ofSign? c = some t) : c.toNat < 128 := by
  unfold Token.ofSign? at h
  split at h <;> first | decide | cases h

theorem lt_of_ofSigns? {c d : Char} {t : Token} (h : Token.ofSigns? c d = some t) :
    c.toNat < 128 ∧ d.toNat < 128 := by
  unfold Token.ofSigns? at h
  split at h <;> first | decide | cases h

theorem lt_of_isScopeLetter {c : Char} (h : Reference.isScopeLetter c = true) : c.toNat < 128 := by
  simp only [Reference.isScopeLetter, Bool.or_eq_true, decide_eq_true_eq] at h
  rcases h with (rfl | rfl) | rfl <;> decide

theorem lt_of_id? {cs id : List Char} (h : Reference.id? cs = some id) :
    ∀ c ∈ cs, c.toNat < 128 := by
  intro c hc
  rcases Reference.isScopeLetter_or_isDigit_of_id? h c hc with h | h
  · exact lt_of_isScopeLetter h
  · exact lt_of_isDigit h

/-- Tokens are spelled in ASCII. -/
theorem lt_of_spelled {t : Token} {cs : List Char} (h : t.Spelled cs) :
    ∀ c ∈ cs, c.toNat < 128 := by
  cases h with
  | number hds _ => exact fun d hd => lt_of_isDigit (Reference.isDigit_of_isNumeral hds d hd)
  | ident hc hcs _ _ =>
    exact List.forall_mem_cons.mpr ⟨lt_of_isWordStart hc, fun d hd => lt_of_isWordChar (hcs d hd)⟩
  | @reference inside id hid =>
    intro c hc
    have hmem : c = '$' ∨ c ∈ inside := by
      simp only [List.mem_cons, List.mem_append, List.not_mem_nil, or_false] at hc
      exact hc.elim .inl fun h => h.symm
    rcases hmem with rfl | hmem
    · decide
    · exact lt_of_id? hid c hmem
  | fixed ht =>
    have hall : (t.spelling.all fun c => c.toNat < 128) = true := by
      cases t with
      | number | ident | reference => cases ht
      | truth b => cases b <;> rfl
      | _ => rfl
    simpa using hall

theorem utf8Size_of_lt {c : Char} (h : c.toNat < 128) : c.utf8Size = 1 :=
  Char.utf8Size_eq_one_iff.mpr (UInt32.le_iff_toNat_le.mpr (Nat.le_of_lt_succ h))

theorem utf8ByteSize_ofList {cs : List Char} (h : ∀ c ∈ cs, c.toNat < 128) :
    (String.ofList cs).utf8ByteSize = cs.length := by
  induction cs with
  | nil => rfl
  | cons c cs ih =>
    obtain ⟨hc, hcs⟩ := List.forall_mem_cons.mp h
    rw [String.ofList_cons, String.utf8ByteSize_append, String.utf8ByteSize_singleton,
      utf8Size_of_lt hc, ih hcs, List.length_cons, Nat.add_comm]

theorem eq_false_of_le {p : Char → Bool} {c : Char} (hp : p c = true → c.toNat < 128)
    (hc : 128 ≤ c.toNat) : p c = false := by
  rw [Bool.eq_false_iff]
  exact fun h => absurd (hp h) (Nat.not_lt.mpr hc)

/-- A class of ASCII characters goes on as far among the bytes of a text as among its characters. -/
theorem takeWhile_latin {p : Char → Bool} (hp : ∀ c, p c = true → c.toNat < 128)
    (cs : List Char) : (latin (String.ofList cs)).takeWhile p = cs.takeWhile p := by
  induction cs with
  | nil => rfl
  | cons c cs ih =>
    rcases latin_cons_cases c cs with ⟨-, hcons⟩ | ⟨hc, d, ds, hcons, hd⟩
    · rw [hcons, List.takeWhile_cons, List.takeWhile_cons, ih]
    · have hnd : p d = false := eq_false_of_le (hp d) (by omega)
      have hnc : p c = false := eq_false_of_le (hp c) hc
      rw [hcons, List.takeWhile_cons_of_neg (by simp [hnd]),
        List.takeWhile_cons_of_neg (by simp [hnc])]

theorem all_latin {p : Char → Bool} (hp : ∀ c, p c = true → c.toNat < 128) (cs : List Char) :
    (latin (String.ofList cs)).all p = cs.all p := by
  induction cs with
  | nil => rfl
  | cons c cs ih =>
    rcases latin_cons_cases c cs with ⟨-, hcons⟩ | ⟨hc, d, ds, hcons, hd⟩
    · rw [hcons, List.all_cons, List.all_cons, ih]
    · have hnd : p d = false := eq_false_of_le (hp d) (by omega)
      have hnc : p c = false := eq_false_of_le (hp c) hc
      rw [hcons, List.all_cons, List.all_cons, hnd, hnc, Bool.false_and, Bool.false_and]

theorem isNumeral_latin (cs : List Char) :
    Reference.isNumeral (latin (String.ofList cs)) = Reference.isNumeral cs := by
  rw [Reference.isNumeral, all_latin fun _ => lt_of_isDigit, Reference.isNumeral]
  cases cs with
  | nil => rfl
  | cons c cs =>
    rcases latin_cons_cases c cs with ⟨-, hcons⟩ | ⟨-, d, ds, hcons, -⟩ <;> rw [hcons] <;> rfl

/-! ### Pieces of a text -/

variable (before : String)

theorem slice?_chars (ds rest : List Char) {j : Nat}
    (hj : j = before.utf8ByteSize + (String.ofList ds).utf8ByteSize) :
    slice? (before ++ String.ofList (ds ++ rest)) before.utf8ByteSize j =
      some (String.ofList ds) := by
  rw [hj, String.ofList_append, ← String.append_assoc]
  exact slice?_append before (String.ofList ds) (String.ofList rest)

theorem slice?_ascii (ds rest : List Char) (hds : ∀ d ∈ ds, d.toNat < 128) :
    slice? (before ++ String.ofList (ds ++ rest)) before.utf8ByteSize
      (before.utf8ByteSize + ds.length) = some (String.ofList ds) :=
  slice?_chars before ds rest (by rw [utf8ByteSize_ofList hds])

theorem slice?_end (cs : List Char) :
    slice? (before ++ String.ofList cs) before.utf8ByteSize
      (before ++ String.ofList cs).utf8ByteSize = some (String.ofList cs) := by
  have hslice := slice?_chars before cs [] rfl
  rwa [List.append_nil, ← String.utf8ByteSize_append] at hslice

theorem exists_of_slice? {cs : List Char} {j : Nat} {s : String}
    (h : slice? (before ++ String.ofList cs) before.utf8ByteSize j = some s) :
    ∃ rest, cs = s.toList ++ rest := by
  obtain ⟨a, b, htext, hsize, -⟩ := slice?_eq_some_iff.mp h
  rw [String.append_assoc] at htext
  have hlist : before.toList ++ cs = a.toList ++ (s.toList ++ b.toList) := by
    simpa using congrArg String.toList htext
  obtain ⟨m, rfl⟩ := exists_between htext hsize.ge
  have hm : m.utf8ByteSize = 0 := by
    rw [String.utf8ByteSize_append] at hsize
    omega
  rw [String.utf8ByteSize_eq_zero_iff.mp hm, String.append_empty] at hlist
  exact ⟨b.toList, List.append_cancel_left hlist⟩

namespace Bytes

theorem id?_ofList (cs : List Char) :
    id? (String.ofList cs) = some ((Reference.id? cs).map String.ofList) := by
  cases cs with
  | nil => rfl
  | cons c cs =>
    rcases latin_cons_cases c cs with ⟨hc, hcons⟩ | ⟨hc, d, ds, hcons, hd⟩
    · unfold id? Reference.id?
      rw [hcons]
      dsimp only
      split
      next hletter =>
        have hslice := slice?_end (String.singleton c) cs
        rw [← String.ofList_cons, String.utf8ByteSize_singleton, utf8Size_of_lt hc] at hslice
        rw [hslice, Option.map_some, isNumeral_latin]
        split <;> rfl
      next =>
        rw [← hcons, isNumeral_latin, String.toList_ofList]
        split <;> rfl
    · have hnd : ¬Reference.isScopeLetter d = true := fun h => by
        have hlt := lt_of_isScopeLetter h
        omega
      have hnc : ¬Reference.isScopeLetter c = true := fun h => by
        have hlt := lt_of_isScopeLetter h
        omega
      unfold id? Reference.id?
      rw [hcons]
      dsimp only
      rw [if_neg hnd, if_neg hnc, ← hcons, isNumeral_latin, String.toList_ofList]
      split <;> rfl

theorem bind_twoSigns? {c : Char} (cs : List Char) :
    (slice? (before ++ String.ofList (c :: cs)) before.utf8ByteSize
      (before.utf8ByteSize + 2)).bind twoSigns? = cs.head?.bind (Token.ofSigns? c) := by
  ext t
  simp only [Option.bind_eq_some_iff]
  constructor
  · rintro ⟨s, hs, ht⟩
    obtain ⟨rest, hrest⟩ := exists_of_slice? before hs
    unfold twoSigns? at ht
    split at ht
    next c' d hchars =>
      rw [hchars] at hrest
      obtain ⟨rfl, rfl⟩ := List.cons.inj hrest
      exact ⟨d, rfl, ht⟩
    next => cases ht
  · rintro ⟨d, hd, ht⟩
    obtain ⟨ds, rfl⟩ := List.head?_eq_some_iff.mp hd
    obtain ⟨hc, hd⟩ := lt_of_ofSigns? ht
    have hslice := slice?_ascii before [c, d] ds (by simp [hc, hd])
    exact ⟨_, hslice, by simpa [twoSigns?] using ht⟩

theorem token?_of_lt {c : Char} (hc : c.toNat < 128) (cs : List Char) :
    token? (before ++ String.ofList (c :: cs)) before.utf8ByteSize c (latin (String.ofList cs)) =
      some (token c cs) := by
  have hrun {p : Char → Bool} (hp : ∀ d, p d = true → d.toNat < 128) :
      slice? (before ++ String.ofList (c :: cs)) before.utf8ByteSize
        (before.utf8ByteSize + (cs.takeWhile p).length + 1) =
      some (String.ofList (c :: cs.takeWhile p)) := by
    have hascii : ∀ d ∈ c :: cs.takeWhile p, d.toNat < 128 :=
      List.forall_mem_cons.mpr
        ⟨hc, fun d hd => hp d (List.all_eq_true.mp List.all_takeWhile d hd)⟩
    have hslice := slice?_ascii before _ (cs.dropWhile p) hascii
    rwa [List.cons_append, List.takeWhile_append_dropWhile, List.length_cons, ← Nat.add_assoc]
      at hslice
  unfold token? token
  split
  next =>
    simp only [takeWhile_latin fun _ => lt_of_isDigit, hrun fun _ => lt_of_isDigit,
      Option.map_some, String.toList_ofList]
  next =>
    split
    next hdollar =>
      subst hdollar
      have hopened := slice?_end (before ++ String.singleton '$') cs
      have hinside := slice?_chars (before ++ String.singleton '$') (Reference.inside cs)
        (Reference.fromDollar cs) rfl
      rw [Reference.inside_append_fromDollar] at hinside
      have hsize : (before ++ String.singleton '$').utf8ByteSize = before.utf8ByteSize + 1 :=
        String.utf8ByteSize_append
      rw [hsize, String.append_assoc, ← String.ofList_cons] at hopened hinside
      have hclosed : String.ofList (Reference.inside cs) = String.ofList cs ↔
          (Reference.inside cs).length = cs.length := by
        rw [String.ofList_inj]
        exact ⟨congrArg List.length, (List.takeWhile_prefix _).eq_of_length⟩
      simp only [hopened, Option.bind_some, String.toList_ofList, hclosed]
      split
      next => rfl
      next =>
        rw [hinside, Option.bind_some, id?_ofList, Option.map_some]
        cases hid : Reference.id? (Reference.inside cs) with
        | none => rfl
        | some id =>
          rw [Option.map_some, utf8ByteSize_ofList (lt_of_id? hid)]
    next =>
      split
      next =>
        simp only [takeWhile_latin fun _ => lt_of_isWordChar, hrun fun _ => lt_of_isWordChar,
          Option.map_some, String.toList_ofList]
      next =>
        rw [bind_twoSigns?]
        cases cs.head?.bind (Token.ofSigns? c) with
        | some t => rfl
        | none =>
          cases Token.ofSign? c with
          | some t => rfl
          | none =>
            simp only [slice?_end, Option.map_some, String.toList_ofList, List.head?_cons,
              Option.getD_some]

/-- A character beyond ASCII begins no token. -/
theorem token?_of_le {c : Char} (hc : 128 ≤ c.toNat) (cs : List Char) {d : Char}
    (hd : 192 ≤ d.toNat) (ds : List Char) :
    token? (before ++ String.ofList (c :: cs)) before.utf8ByteSize d ds =
      some (token c cs) := by
  have hhigh {p : Char → Bool} (hp : ∀ e, p e = true → e.toNat < 128) :
      ¬p d = true ∧ ¬p c = true := by
    constructor <;> intro h <;> have hlt := hp _ h <;> omega
  have hdollar : d ≠ '$' ∧ c ≠ '$' := by
    constructor <;> rintro rfl
    · exact absurd hd (by decide)
    · exact absurd hc (by decide)
  have hsigns : cs.head?.bind (Token.ofSigns? c) = none := by
    rw [Option.bind_eq_none_iff]
    intro e _
    rw [Option.eq_none_iff_forall_not_mem]
    intro t ht
    exact absurd (lt_of_ofSigns? ht).1 (Nat.not_lt.mpr hc)
  have hsign {e : Char} (he : 128 ≤ e.toNat) : Token.ofSign? e = none := by
    rw [Option.eq_none_iff_forall_not_mem]
    intro t ht
    exact absurd (lt_of_ofSign? ht) (Nat.not_lt.mpr he)
  obtain ⟨hdDigit, hcDigit⟩ := hhigh fun _ => lt_of_isDigit
  obtain ⟨hdWord, hcWord⟩ := hhigh fun _ => lt_of_isWordStart
  unfold token? token
  rw [if_neg hdDigit, if_neg hdollar.1, if_neg hdWord, bind_twoSigns?, if_neg hcDigit,
    if_neg hdollar.2, if_neg hcWord, hsigns, hsign hc, hsign (by omega : 128 ≤ d.toNat)]
  simp only [slice?_end, Option.map_some, String.toList_ofList, List.head?_cons, Option.getD_some]

/-- Wherever the cursor stands between characters, it sees the token that the characters spell. -/
theorem token?_eq {c d : Char} {cs ds : List Char} (h : latin (String.ofList (c :: cs)) = d :: ds) :
    token? (before ++ String.ofList (c :: cs)) before.utf8ByteSize d ds = some (token c cs) := by
  rcases latin_cons_cases c cs with ⟨hc, hcons⟩ | ⟨hc, d', ds', hcons, hd⟩
  · obtain ⟨rfl, rfl⟩ := List.cons.inj (hcons.symm.trans h)
    exact token?_of_lt before hc cs
  · obtain ⟨rfl, rfl⟩ := List.cons.inj (hcons.symm.trans h)
    exact token?_of_le before hc cs hd ds'

/-- The two blanks beyond ASCII are bytes at which the cursor never stands. -/
theorem isSpace_eq {c d : Char} {cs ds : List Char}
    (h : latin (String.ofList (c :: cs)) = d :: ds) : isSpace d = isBlank c := by
  have hne {n : Nat} (hd : d.toNat < 128 ∨ 192 ≤ d.toNat) (hn : 128 ≤ n ∧ n < 192) :
      d ≠ Char.ofNat n := by
    rintro rfl
    rw [Char.toNat_ofNat, if_pos (Or.inl (by omega))] at hd
    omega
  have hspace (hd : d.toNat < 128 ∨ 192 ≤ d.toNat) : isSpace d = isBlank d := by
    have hnext : d ≠ '\u0085' := hne hd (n := 0x85) (by decide)
    have hnbsp : d ≠ '\u00a0' := hne hd (n := 0xa0) (by decide)
    simp [isSpace, hnext, hnbsp]
  rcases latin_cons_cases c cs with ⟨hc, hcons⟩ | ⟨hc, d', ds', hcons, hd⟩
  · obtain ⟨rfl, -⟩ := List.cons.inj (hcons.symm.trans h)
    exact hspace (.inl hc)
  · obtain ⟨rfl, -⟩ := List.cons.inj (hcons.symm.trans h)
    rw [hspace (.inr hd), eq_false_of_le lt_of_isBlank hc,
      eq_false_of_le lt_of_isBlank (by omega : 128 ≤ d'.toNat)]

theorem lexemes?_of_drop {text : String} {i : Nat} {c : Char} {cs : List Char}
    (h : (latin text).drop i = c :: cs) :
    lexemes? text i =
      if isSpace c then lexemes? text (i + 1)
      else match token? text i c cs with
        | none => none
        | some (.error fault) => some (.error ⟨i, fault⟩)
        | some (.ok (t, n)) =>
          (lexemes? text (i + n + 1)).map (Except.map (⟨some t, i, i + n + 1⟩ :: ·)) := by
  rw [lexemes?]
  split
  next hnil => rw [hnil] at h; cases h
  next c' cs' hcons =>
    obtain ⟨rfl, rfl⟩ := List.cons.inj (hcons.symm.trans h)
    rfl

theorem lexemes?_cons (c : Char) (cs : List Char) :
    lexemes? (before ++ String.ofList (c :: cs)) before.utf8ByteSize =
      if isBlank c then lexemes? (before ++ String.ofList (c :: cs)) (before.utf8ByteSize + 1)
      else match token c cs with
        | .error fault => some (.error ⟨before.utf8ByteSize, fault⟩)
        | .ok (t, n) =>
          (lexemes? (before ++ String.ofList (c :: cs)) (before.utf8ByteSize + n + 1)).map
            (Except.map (⟨some t, before.utf8ByteSize, before.utf8ByteSize + n + 1⟩ :: ·)) := by
  obtain ⟨d, ds, hcons⟩ : ∃ d ds, latin (String.ofList (c :: cs)) = d :: ds := by
    rcases latin_cons_cases c cs with ⟨-, hcons⟩ | ⟨-, d, ds, hcons, -⟩
    · exact ⟨_, _, hcons⟩
    · exact ⟨_, _, hcons⟩
  have hdrop : (latin (before ++ String.ofList (c :: cs))).drop before.utf8ByteSize = d :: ds := by
    rw [latin_append, ← length_latin, List.drop_left, hcons]
  rw [lexemes?_of_drop hdrop, isSpace_eq hcons, token?_eq before hcons]
  cases token c cs <;> rfl

theorem lexemes?_nil : lexemes? (before ++ String.ofList []) before.utf8ByteSize =
    some (.ok (marks (before ++ String.ofList []) [])) := by
  have hdrop : (latin (before ++ String.ofList [])).drop before.utf8ByteSize = [] := by
    rw [latin_append, ← length_latin, List.drop_left]
    rfl
  rw [lexemes?]
  split
  next => rfl
  next h =>
    rw [hdrop] at h
    cases h

/-- After a token the cursor stands between two characters again. -/
theorem exists_before {c : Char} {cs : List Char} {t : Token} {n : Nat}
    (h : token c cs = .ok (t, n)) :
    ∃ after, before ++ String.ofList (c :: cs) = after ++ String.ofList (cs.drop n) ∧
      before.utf8ByteSize + n + 1 = after.utf8ByteSize := by
  obtain ⟨ds, rest, rfl, rfl, hspelled, -⟩ := spelled_of_token h
  refine ⟨before ++ String.ofList (c :: ds), ?_, ?_⟩
  · rw [List.drop_left, String.append_assoc, ← String.ofList_append, List.cons_append]
  · rw [String.utf8ByteSize_append, utf8ByteSize_ofList (lt_of_spelled hspelled),
      List.length_cons, Nat.add_assoc]

/-- The cursor finds the tokens that the characters spell, or the same fault. -/
theorem lexemes?_eq (pos : Nat) (cs : List Char) (hpos : pos = before.utf8ByteSize) :
    lexemes? (before ++ String.ofList cs) pos =
      some ((lexemes pos cs).map (marks (before ++ String.ofList cs))) := by
  induction pos, cs using lexemes.induct generalizing before with
  | case1 pos =>
    rw [hpos, lexemes?_nil, lexemes]
    rfl
  | case2 pos c cs hblank ih =>
    subst hpos
    have hsize : before.utf8ByteSize + 1 = (before ++ String.singleton c).utf8ByteSize := by
      rw [String.utf8ByteSize_append, String.utf8ByteSize_singleton,
        utf8Size_of_lt (lt_of_isBlank hblank)]
    have hrest := ih _ hsize
    rw [String.append_assoc, ← String.ofList_cons] at hrest
    rw [lexemes?_cons, if_pos hblank, hrest, lexemes, if_pos hblank]
  | case3 pos c cs hblank fault hfault =>
    subst hpos
    rw [lexemes?_cons, if_neg hblank, lexemes, if_neg hblank, hfault]
    rfl
  | case4 pos c cs hblank t n ht e hrest ih =>
    subst hpos
    obtain ⟨after, htext, hafter⟩ := exists_before before ht
    have hlater := ih after hafter
    rw [← htext, hrest] at hlater
    rw [lexemes?_cons, if_neg hblank, lexemes, if_neg hblank, ht]
    simp only [hlater, hrest, Option.map_some, Except.map]
  | case5 pos c cs hblank t n ht rest hrest ih =>
    subst hpos
    obtain ⟨after, htext, hafter⟩ := exists_before before ht
    have hlater := ih after hafter
    rw [← htext, hrest] at hlater
    rw [lexemes?_cons, if_neg hblank, lexemes, if_neg hblank, ht]
    simp only [hlater, hrest, Option.map_some, Except.map]
    rfl

end Bytes

end SceneFormula.Lexer
