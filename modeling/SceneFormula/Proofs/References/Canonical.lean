import SceneFormula.Proofs.Printing

/-!
# Canonical ids

The id of a numeral is the decimal spelling of its value, and the id of any other reference is all
that stands between its dollar signs.  So ids can be compared in place of the variables that they
stand for: two references have the same id only if they are the same, or are numerals of one value.
-/

namespace SceneFormula.Reference

/-! ### Numerals and their values -/

theorem exists_digitChar_of_isDigit {d : Char} (h : d.isDigit = true) :
    ∃ n < 10, d = Nat.digitChar n := by
  have hle : 48 ≤ d.toNat ∧ d.toNat ≤ 57 := by
    simpa [Char.isDigit, UInt32.le_iff_toNat_le] using h
  obtain ⟨n, hn⟩ := Nat.exists_eq_add_of_le hle.1
  have hlt : n < 10 := by omega
  refine ⟨n, hlt, ?_⟩
  rw [← Char.ofNat_toNat d, hn]
  clear hle hn
  interval_cases n <;> rfl

/-- Digits that are read after a number stand behind the digits of the number.  After zero they would
not, as its digit becomes a leading zero. -/
theorem toDigits_ofDigitChars {n : Nat} (hn : 0 < n) {ds : List Char}
    (hds : ∀ d ∈ ds, d.isDigit = true) :
    Nat.toDigits 10 (Nat.ofDigitChars 10 ds n) = Nat.toDigits 10 n ++ ds := by
  induction ds generalizing n with
  | nil => rw [Nat.ofDigitChars_nil, List.append_nil]
  | cons d ds ih =>
    obtain ⟨hd, hrest⟩ := List.forall_mem_cons.mp hds
    obtain ⟨k, hk, rfl⟩ := exists_digitChar_of_isDigit hd
    rw [Nat.ofDigitChars_cons_digitChar_of_lt_ten hk, ih (by omega) hrest,
      ← Nat.toDigits_append_toDigits (by decide) hn hk, Nat.toDigits_of_lt_base hk,
      List.append_assoc, List.singleton_append]

theorem ofDigitChars_dropWhile_zero (ds : List Char) :
    Nat.ofDigitChars 10 (ds.dropWhile (· = '0')) 0 = Nat.ofDigitChars 10 ds 0 := by
  induction ds with
  | nil => rfl
  | cons d ds ih =>
    by_cases hd : d = '0'
    · subst hd
      rw [List.dropWhile_cons_of_pos (by decide), ih]
      rfl
    · rw [List.dropWhile_cons_of_neg (by simpa using hd)]

/-- A numeral without its leading zeros is the decimal spelling of its value. -/
theorem trimZeros_eq_toDigits {ds : List Char} (hds : ∀ d ∈ ds, d.isDigit = true) :
    trimZeros ds = Nat.toDigits 10 (Nat.ofDigitChars 10 ds 0) := by
  rw [← ofDigitChars_dropWhile_zero]
  rcases trimZeros_cases hds with ⟨hrest, htrim⟩ | ⟨d, rest, hrest, htrim, hne, hdigits⟩
  · rw [hrest, htrim]
    rfl
  · obtain ⟨hd, hafter⟩ := List.forall_mem_cons.mp hdigits
    obtain ⟨k, hk, rfl⟩ := exists_digitChar_of_isDigit hd
    have hpos : 0 < k := Nat.pos_of_ne_zero fun hzero => hne (Nat.digitChar_eq_zero.mpr hzero)
    rw [hrest, htrim, Nat.ofDigitChars_cons_digitChar_of_lt_ten hk, Nat.mul_zero, Nat.zero_add,
      toDigits_ofDigitChars hpos hafter, Nat.toDigits_of_lt_base hk, List.singleton_append]

theorem isDigit_of_mem_trimZeros {ds : List Char} (hds : ∀ d ∈ ds, d.isDigit = true) {c : Char}
    (hc : c ∈ trimZeros ds) : c.isDigit = true := by
  rw [trimZeros_eq_toDigits hds] at hc
  exact Nat.isDigit_of_mem_toDigits (by decide) (by decide) hc

theorem trimZeros_eq_iff {ds es : List Char} (hds : ∀ d ∈ ds, d.isDigit = true)
    (hes : ∀ e ∈ es, e.isDigit = true) :
    trimZeros ds = trimZeros es ↔ Nat.ofDigitChars 10 ds 0 = Nat.ofDigitChars 10 es 0 := by
  rw [trimZeros_eq_toDigits hds, trimZeros_eq_toDigits hes]
  constructor
  · intro h
    have hvalue := congrArg (Nat.ofDigitChars 10 · 0) h
    simpa only [Nat.ofDigitChars_ten_toDigits] using hvalue
  · exact congrArg _

/-! ### References and their ids -/

variable {r s i j : List Char}

/-- An id that begins with a letter is not that of a numeral. -/
theorem cons_ne_trimZeros {c : Char} (hc : isScopeLetter c = true) (cs : List Char)
    (hr : ∀ d ∈ r, d.isDigit = true) : c :: cs ≠ trimZeros r := by
  intro h
  have hdigit := isDigit_of_mem_trimZeros hr (h ▸ List.mem_cons_self)
  rw [isScopeLetter_of_isDigit hdigit] at hc
  cases hc

theorem eq_trimZeros_of_id? (h : id? r = some i) (hr : ∀ d ∈ r, d.isDigit = true) :
    i = trimZeros r := by
  rcases id?_cases h with ⟨c, cs, rfl, hc, -, -⟩ | ⟨-, hi⟩
  · rw [isScopeLetter_of_isDigit (hr c List.mem_cons_self)] at hc
    cases hc
  · exact hi

theorem eq_or_of_id?_eq (hr : id? r = some i) (hs : id? s = some i) :
    r = s ∨ ((∀ d ∈ r, d.isDigit = true) ∧ (∀ d ∈ s, d.isDigit = true) ∧
      Nat.ofDigitChars 10 r 0 = Nat.ofDigitChars 10 s 0) := by
  rcases id?_cases hr with ⟨c, cs, rfl, hc, -, rfl⟩ | ⟨hrnum, rfl⟩
  · rcases id?_cases hs with ⟨_, _, rfl, -, -, heq⟩ | ⟨hsnum, heq⟩
    · exact .inl heq
    · exact absurd heq (cons_ne_trimZeros hc cs (isDigit_of_isNumeral hsnum))
  · have hrd := isDigit_of_isNumeral hrnum
    rcases id?_cases hs with ⟨c, cs, rfl, hc, -, heq⟩ | ⟨hsnum, heq⟩
    · exact absurd heq.symm (cons_ne_trimZeros hc cs hrd)
    · have hsd := isDigit_of_isNumeral hsnum
      exact .inr ⟨hrd, hsd, (trimZeros_eq_iff hrd hsd).mp heq⟩

/-- The text of an id between dollar signs is read as the variable with this id. -/
theorem ofText?_of_isId (h : IsId i) :
    Expr.ofText? (String.ofList ('$' :: (i ++ ['$']))) = .ok (.var (String.ofList i)) := by
  have hd : Grammar.Derives (.level 10) [.reference (String.ofList i)] (.var (String.ofList i)) 1 :=
    (Grammar.Derives.operand (.reference _)).loosen (Nat.zero_le 10)
  have hspells : Spells [.reference (String.ofList i)] _ := .token _ .nil
  rw [List.append_nil, Token.spelling, String.toList_ofList] at hspells
  refine Expr.ofText?_of_derives hd (by decide) (List.forall_mem_singleton.mpr ?_) ?_
  · rwa [Token.HasSpelling, String.toList_ofList]
  · rwa [String.toList_ofList]

/-- Ids are canonical.  Two references have the same id if and only if they are the same between
their dollar signs, or are both numerals of one value; an id is its own id, and between dollar signs
it is read as the variable that it stands for. -/
theorem id?_canonical (hr : id? r = some i) (hs : id? s = some j) :
    (i = j ↔ r = s ∨ ((∀ d ∈ r, d.isDigit = true) ∧ (∀ d ∈ s, d.isDigit = true) ∧
        Nat.ofDigitChars 10 r 0 = Nat.ofDigitChars 10 s 0)) ∧
      id? i = some i ∧
      Expr.ofText? (String.ofList ('$' :: (i ++ ['$']))) = .ok (.var (String.ofList i)) := by
  have hid := isId_of_id? hr
  refine ⟨⟨?_, ?_⟩, id?_of_isId hid, ofText?_of_isId hid⟩
  · rintro rfl
    exact eq_or_of_id?_eq hr hs
  · rintro (rfl | ⟨hrd, hsd, hvalue⟩)
    · exact Option.some.inj (hr.symm.trans hs)
    · rw [eq_trimZeros_of_id? hr hrd, eq_trimZeros_of_id? hs hsd]
      exact (trimZeros_eq_iff hrd hsd).mpr hvalue

theorem id?_canonical_zeros :
    id? ['0', '0', '7'] = some ['7'] ∧ id? ['0', '7'] = some ['7'] ∧
      Nat.ofDigitChars 10 ['0', '0', '7'] 0 = Nat.ofDigitChars 10 ['0', '7'] 0 ∧
      id? ['7'] = some ['7'] ∧ Expr.ofText? "$7$" = .ok (.var "7") := by
  have h : id? ['0', '0', '7'] = some ['7'] := by decide
  have h' : id? ['0', '7'] = some ['7'] := by decide
  obtain ⟨hsame, hid, hread⟩ := id?_canonical h h'
  have hvalue := (hsame.mp rfl).resolve_left (by decide)
  exact ⟨h, h', hvalue.2.2, hid, hread⟩

end SceneFormula.Reference
