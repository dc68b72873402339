import SceneFormula.Text.Lexer
import Mathlib.Tactic

/-!
# References in a text

The scanner looks for dollar signs in the raw text and pairs them from the left; the lexer pairs
them among the other tokens and stops at the first fault.  Where the lexer has none to report, no
dollar sign stands outside a reference, so both go on from the same place after each reference.
-/

namespace SceneFormula

namespace Reference

theorem inside_append_fromDollar (cs : List Char) : inside cs ++ fromDollar cs = cs :=
  List.takeWhile_append_dropWhile

theorem drop_length_inside (cs : List Char) : cs.drop (inside cs).length = fromDollar cs := by
  calc cs.drop (inside cs).length
      = (inside cs ++ fromDollar cs).drop (inside cs).length := by rw [inside_append_fromDollar]
    _ = fromDollar cs := List.drop_left

theorem fromDollar_ne_nil {cs : List Char} (h : (inside cs).length ≠ cs.length) :
    fromDollar cs ≠ [] := by
  intro hnil
  have hcs := inside_append_fromDollar cs
  rw [hnil, List.append_nil] at hcs
  exact h (congrArg List.length hcs)

theorem scan_eq (cs : List Char) :
    scan cs = match fromDollar cs with
      | [] => []
      | _ :: opened =>
        match fromDollar opened with
        | [] => []
        | close :: rest =>
          match id? (inside opened) with
          | some id => id :: scan rest
          | none => scan (close :: rest) := by
  rw [scan]
  split
  next h => simp only [h]
  next opened h =>
    simp only [h]
    split
    next h' => simp only [h']
    next h' =>
      cases id? (inside opened) with
      | none => simp only [h']
      | some id => simp only [h']

/-- The scanner looks at nothing before the first dollar sign. -/
theorem scan_append {cs : List Char} (ds : List Char) (h : ∀ c ∈ cs, c ≠ '$') :
    scan (cs ++ ds) = scan ds := by
  have hfrom : fromDollar (cs ++ ds) = fromDollar ds :=
    List.dropWhile_append_of_pos (by simpa using h)
  rw [scan_eq, scan_eq ds, hfrom]

theorem scan_reference {cs id : List Char} (hclosed : (inside cs).length ≠ cs.length)
    (hid : id? (inside cs) = some id) :
    scan ('$' :: cs) = id :: scan (cs.drop ((inside cs).length + 1)) := by
  have hopen : fromDollar ('$' :: cs) = '$' :: cs := rfl
  obtain ⟨close, rest, hrest⟩ := List.exists_cons_of_ne_nil (fromDollar_ne_nil hclosed)
  rw [scan_eq, hopen, ← List.drop_drop, drop_length_inside, hrest]
  simp only [hid, hrest, List.drop_one, List.tail_cons]

/-! ### Ids that stand for themselves -/

/-- The inside of a reference that is its own id: a scope letter before a numeral, or a numeral
without superfluous leading zeros. -/
inductive IsId : List Char → Prop
  | lettered {c : Char} {ds : List Char} (hc : isScopeLetter c = true) (hds : isNumeral ds = true) :
      IsId (c :: ds)
  | numeral {ds : List Char} (hds : isNumeral ds = true)
      (hzero : ds.head? = some '0' → ds = ['0']) : IsId ds

theorem isDigit_of_isNumeral {ds : List Char} (h : isNumeral ds = true) :
    ∀ d ∈ ds, d.isDigit = true := by
  rw [isNumeral, Bool.and_eq_true] at h
  exact List.all_eq_true.mp h.2

theorem isScopeLetter_of_isDigit {c : Char} (h : c.isDigit = true) : isScopeLetter c = false := by
  rw [Bool.eq_false_iff]
  intro hc
  simp only [isScopeLetter, Bool.or_eq_true, decide_eq_true_eq] at hc
  rcases hc with (rfl | rfl) | rfl <;> cases h

theorem trimZeros_of_head?_ne {ds : List Char} (hne : ds ≠ []) (h : ds.head? ≠ some '0') :
    trimZeros ds = ds := by
  obtain ⟨d, ds, rfl⟩ := List.exists_cons_of_ne_nil hne
  have hd : d ≠ '0' := by simpa using h
  rw [trimZeros, List.dropWhile_cons_of_neg (by simpa using hd)]

theorem id?_of_isId {cs : List Char} (h : IsId cs) : id? cs = some cs := by
  cases h with
  | lettered hc hds => rw [id?, if_pos hc, if_pos hds]
  | numeral hds hzero =>
    cases cs with
    | nil => cases hds
    | cons d ds =>
      have hletter : isScopeLetter d = false :=
        isScopeLetter_of_isDigit (isDigit_of_isNumeral hds d List.mem_cons_self)
      rw [id?, if_neg (by simp [hletter]), if_pos hds]
      by_cases hd : d = '0'
      · subst hd
        rw [hzero rfl]
        rfl
      · rw [trimZeros_of_head?_ne (List.cons_ne_nil d ds) (by simpa using hd)]

/-- A numeral is of zeros only, or what is left without its leading zeros begins with another
digit. -/
theorem trimZeros_cases {ds : List Char} (hds : ∀ d ∈ ds, d.isDigit = true) :
    (ds.dropWhile (· = '0') = [] ∧ trimZeros ds = ['0']) ∨
      ∃ d rest, ds.dropWhile (· = '0') = d :: rest ∧ trimZeros ds = d :: rest ∧ d ≠ '0' ∧
        ∀ c ∈ d :: rest, c.isDigit = true := by
  rw [trimZeros]
  cases hrest : ds.dropWhile (· = '0') with
  | nil => exact .inl ⟨rfl, rfl⟩
  | cons d rest =>
    have hsuffix : d :: rest <:+ ds := hrest ▸ List.dropWhile_suffix _
    have hd : d ≠ '0' := by
      have hnot := List.head?_dropWhile_not (· = '0') ds
      simpa [hrest] using hnot
    exact .inr ⟨d, rest, rfl, rfl, hd, fun c hc => hds c (hsuffix.subset hc)⟩

theorem isId_trimZeros {ds : List Char} (h : isNumeral ds = true) : IsId (trimZeros ds) := by
  rcases trimZeros_cases (isDigit_of_isNumeral h) with ⟨-, htrim⟩ | ⟨d, rest, -, htrim, hd, hdigits⟩
  · rw [htrim]
    exact .numeral rfl fun _ => rfl
  · rw [htrim]
    refine .numeral ?_ fun hzero => absurd (Option.some.inj hzero) hd
    exact List.all_eq_true.mpr hdigits

/-- What denotes a variable is a scope letter before a numeral, or a numeral whose leading zeros do
not count. -/
theorem id?_cases {cs id : List Char} (h : id? cs = some id) :
    (∃ c ds, cs = c :: ds ∧ isScopeLetter c = true ∧ isNumeral ds = true ∧ id = c :: ds) ∨
      (isNumeral cs = true ∧ id = trimZeros cs) := by
  cases cs with
  | nil => cases h
  | cons c ds =>
    rw [id?] at h
    split at h
    next hc =>
      split at h
      next hds => exact .inl ⟨c, ds, rfl, hc, hds, (Option.some.inj h).symm⟩
      next => cases h
    next =>
      split at h
      next hcs => exact .inr ⟨hcs, (Option.some.inj h).symm⟩
      next => cases h

/-- The id that a reference denotes stands for itself. -/
theorem isId_of_id? {cs id : List Char} (h : id? cs = some id) : IsId id := by
  rcases id?_cases h with ⟨c, ds, -, hc, hds, rfl⟩ | ⟨hcs, rfl⟩
  · exact .lettered hc hds
  · exact isId_trimZeros hcs

theorem isScopeLetter_or_isDigit_of_id? {cs id : List Char} (h : id? cs = some id) :
    ∀ c ∈ cs, isScopeLetter c = true ∨ c.isDigit = true := by
  rcases id?_cases h with ⟨c, ds, rfl, hc, hds, -⟩ | ⟨hcs, -⟩
  · exact List.forall_mem_cons.mpr ⟨.inl hc, fun d hd => .inr (isDigit_of_isNumeral hds d hd)⟩
  · exact fun d hd => .inr (isDigit_of_isNumeral hcs d hd)

theorem ne_dollar_of_id? {cs id : List Char} (h : id? cs = some id) : ∀ c ∈ cs, c ≠ '$' := by
  rintro c hc rfl
  rcases isScopeLetter_or_isDigit_of_id? h '$' hc with h | h <;> cases h

end Reference

namespace Token

def referenceId? : Token → Option String
  | reference id => some id
  | _ => none

theorem referenceId?_ofWord (word : List Char) : (ofWord word).referenceId? = none := by
  unfold ofWord
  split
  · rfl
  · split <;> rfl

theorem referenceId?_of_ofSigns? {c d : Char} {t : Token} (h : ofSigns? c d = some t) :
    d ≠ '$' ∧ t.referenceId? = none := by
  unfold ofSigns? at h
  split at h <;> cases h <;> exact ⟨by decide, rfl⟩

theorem referenceId?_of_ofSign? {c : Char} {t : Token} (h : ofSign? c = some t) :
    t.referenceId? = none := by
  unfold ofSign? at h
  split at h <;> cases h <;> rfl

end Token

namespace Lexer

open Reference (inside id?)

theorem ne_dollar_of_isDigit {c : Char} (h : c.isDigit) : c ≠ '$' := by
  rintro rfl
  cases h

theorem ne_dollar_of_isWordChar {c : Char} (h : isWordChar c) : c ≠ '$' := by
  rintro rfl
  cases h

theorem forall_mem_take_takeWhile {p : Char → Bool} (hp : ∀ c, p c → c ≠ '$') (cs : List Char) :
    ∀ d ∈ cs.take (cs.takeWhile p).length, d ≠ '$' := by
  intro d hd
  rw [← List.prefix_iff_eq_take.mp (List.takeWhile_prefix p)] at hd
  exact hp d (List.all_eq_true.mp List.all_takeWhile d hd)

/-- A token is a reference between two dollar signs, or it holds no dollar sign. -/
theorem token_cases {c : Char} {cs : List Char} {t : Token} {n : Nat}
    (h : token c cs = .ok (t, n)) :
    (∃ id, c = '$' ∧ (inside cs).length ≠ cs.length ∧ id? (inside cs) = some id ∧
        t = .reference (String.ofList id) ∧ n = (inside cs).length + 1) ∨
      (t.referenceId? = none ∧ ∀ d ∈ c :: cs.take n, d ≠ '$') := by
  unfold token at h
  split at h
  next hdigit =>
    dsimp only at h
    split at h
    · cases h
      refine .inr ⟨rfl, List.forall_mem_cons.mpr ⟨ne_dollar_of_isDigit hdigit, ?_⟩⟩
      exact forall_mem_take_takeWhile (fun _ => ne_dollar_of_isDigit) cs
    · cases h
  next =>
    split at h
    next hdollar =>
      dsimp only at h
      split at h
      · cases h
      next hclosed =>
        split at h
        next id hid =>
          cases h
          exact .inl ⟨id, hdollar, hclosed, hid, rfl, rfl⟩
        next => cases h
    next hdollar =>
      refine .inr ?_
      split at h
      next =>
        cases h
        refine ⟨Token.referenceId?_ofWord _, List.forall_mem_cons.mpr ⟨hdollar, ?_⟩⟩
        exact forall_mem_take_takeWhile (fun _ => ne_dollar_of_isWordChar) cs
      next =>
        split at h
        next t' htwo =>
          cases h
          obtain ⟨d, hd, hsigns⟩ := Option.bind_eq_some_iff.mp htwo
          obtain ⟨hne, href⟩ := Token.referenceId?_of_ofSigns? hsigns
          obtain ⟨ds, rfl⟩ := List.head?_eq_some_iff.mp hd
          refine ⟨href, ?_⟩
          simp [hdollar, hne]
        next =>
          split at h
          next t' hone =>
            cases h
            exact ⟨Token.referenceId?_of_ofSign? hone, by simpa using hdollar⟩
          next => cases h

/-- Where a text can be cut into tokens, the scanner finds the references among them. -/
theorem scan_eq_filterMap_of_lexemes {pos : Nat} {cs : List Char} {ls : List Lexeme}
    (h : lexemes pos cs = .ok ls) :
    (Reference.scan cs).map String.ofList = ls.filterMap (·.token.referenceId?) := by
  induction pos, cs using lexemes.induct generalizing ls with
  | case1 pos =>
    rw [lexemes] at h
    cases h
    rw [Reference.scan_eq]
    rfl
  | case2 pos c cs hblank ih =>
    rw [lexemes, if_pos hblank] at h
    have hc : ∀ d ∈ [c], d ≠ '$' := by
      rintro d hd rfl
      rw [← List.mem_singleton.mp hd] at hblank
      cases hblank
    rw [← ih h]
    exact congrArg _ (Reference.scan_append cs hc)
  | case3 pos c cs hblank fault hfault =>
    rw [lexemes, if_neg hblank, hfault] at h
    cases h
  | case4 pos c cs hblank t n ht e hrest ih =>
    rw [lexemes, if_neg hblank, ht] at h
    simp only [hrest] at h
    cases h
  | case5 pos c cs hblank t n ht rest hrest ih =>
    rw [lexemes, if_neg hblank, ht] at h
    simp only [hrest] at h
    cases h
    rw [List.filterMap_cons, ← ih hrest]
    rcases token_cases ht with ⟨id, rfl, hclosed, hid, rfl, rfl⟩ | ⟨href, hno⟩
    · rw [Reference.scan_reference hclosed hid]
      rfl
    · have hsplit : c :: cs = (c :: cs.take n) ++ cs.drop n := by simp
      rw [hsplit, Reference.scan_append _ hno]
      simp [href]

end Lexer

end SceneFormula
