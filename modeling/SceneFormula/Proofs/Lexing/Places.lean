import SceneFormula.Text.Lexer
import Mathlib

/-!
# Places in a text

A place in a text is a number of bytes.  The bytes can be looked at one by one, each as the
character of its own number; a piece of the text between two places can be had only if neither lies
inside a character.
-/

namespace SceneFormula

/-- A token, or the end of the text, with the bytes that it takes up. -/
structure Mark where
  token : Option Token
  start : Nat
  stop : Nat
  deriving DecidableEq

def Lexeme.mark (l : Lexeme) : Mark := ⟨some l.token, l.start, l.stop⟩

/-- The tokens of a text, and after them its end, which takes up no bytes. -/
def marks (text : String) (ls : List Lexeme) : List Mark :=
  ls.map Lexeme.mark ++ [⟨none, text.utf8ByteSize, text.utf8ByteSize⟩]

namespace Lexer

/-- The bytes of a text, each read as the character of its number. -/
def latin (text : String) : List Char :=
  text.toByteArray.data.toList.map fun b => Char.ofNat b.toNat

/-- The text from byte `i` on and before byte `j`.  There is none if one of the two lies inside a
character or beyond the end of the text, or if `j` comes before `i`. -/
def slice? (text : String) (i j : Nat) : Option String :=
  if i ≤ j ∧ String.Pos.Raw.IsValid text ⟨i⟩ ∧ String.Pos.Raw.IsValid text ⟨j⟩ then
    some (String.Pos.Raw.extract text ⟨i⟩ ⟨j⟩)
  else none

/-! ### Pieces -/

theorem slice?_append (a s b : String) :
    slice? (a ++ s ++ b) a.utf8ByteSize (a.utf8ByteSize + s.utf8ByteSize) = some s := by
  have hstart : String.Pos.Raw.IsValid (a ++ s ++ b) ⟨a.utf8ByteSize⟩ :=
    String.Pos.Raw.isValid_iff_exists_append.mpr ⟨a, s ++ b, String.append_assoc, rfl⟩
  have hstop : String.Pos.Raw.IsValid (a ++ s ++ b) ⟨a.utf8ByteSize + s.utf8ByteSize⟩ :=
    String.Pos.Raw.isValid_iff_exists_append.mpr
      ⟨a ++ s, b, rfl, by simp [String.Pos.Raw.ext_iff, String.utf8ByteSize_append]⟩
  have hextract := String.extract_of_valid a.toList s.toList b.toList
  simp only [String.ofList_append, String.ofList_toList, String.utf8Len_toList] at hextract
  rw [slice?, if_pos ⟨Nat.le_add_right _ _, hstart, hstop⟩, hextract]

/-- Of two ways to cut a text, the one that cuts it later has a piece between them. -/
theorem exists_between {a b c d : String} (h : a ++ b = c ++ d)
    (hle : a.utf8ByteSize ≤ c.utf8ByteSize) : ∃ s, c = a ++ s := by
  have hlist : a.toList ++ b.toList = c.toList ++ d.toList := by
    simpa using congrArg String.toList h
  rcases List.append_eq_append_iff.mp hlist with ⟨s, hs, -⟩ | ⟨s, hs, -⟩
  · exact ⟨String.ofList s, by rw [← String.toList_inj]; simp [hs]⟩
  · have ha : a = c ++ String.ofList s := by
      rw [← String.toList_inj]
      simp [hs]
    have hsize : (String.ofList s).utf8ByteSize = 0 := by
      have hadd := congrArg String.utf8ByteSize ha
      rw [String.utf8ByteSize_append] at hadd
      omega
    rw [String.utf8ByteSize_eq_zero_iff.mp hsize, String.append_empty] at ha
    exact ⟨"", by rw [ha, String.append_empty]⟩

theorem slice?_eq_some_iff {text s : String} {i j : Nat} :
    slice? text i j = some s ↔
      ∃ a b, text = a ++ s ++ b ∧ a.utf8ByteSize = i ∧ i + s.utf8ByteSize = j := by
  constructor
  · intro h
    unfold slice? at h
    split at h
    next hvalid =>
      obtain ⟨hle, hi, hj⟩ := hvalid
      obtain ⟨a, b', ha, hia⟩ := String.Pos.Raw.isValid_iff_exists_append.mp hi
      obtain ⟨c, b, hc, hjc⟩ := String.Pos.Raw.isValid_iff_exists_append.mp hj
      obtain rfl : i = a.utf8ByteSize := congrArg String.Pos.Raw.byteIdx hia
      obtain rfl : j = c.utf8ByteSize := congrArg String.Pos.Raw.byteIdx hjc
      obtain ⟨m, rfl⟩ := exists_between (ha.symm.trans hc) hle
      have hslice := slice?_append a m b
      rw [← hc, ← String.utf8ByteSize_append, slice?, if_pos ⟨hle, hi, hj⟩, h] at hslice
      obtain rfl := Option.some.inj hslice
      exact ⟨a, b, hc, rfl, String.utf8ByteSize_append.symm⟩
    next => cases h
  · rintro ⟨a, b, rfl, rfl, rfl⟩
    exact slice?_append a s b

/-! ### Bytes -/

theorem latin_append (a b : String) : latin (a ++ b) = latin a ++ latin b := by
  simp [latin, String.toByteArray_append, ByteArray.data_append]

theorem length_latin (text : String) : (latin text).length = text.utf8ByteSize := by
  simp [latin]

theorem latin_singleton (c : Char) :
    latin (String.singleton c) = (String.utf8EncodeChar c).map fun b => Char.ofNat b.toNat := by
  simp [latin, String.toByteArray_singleton, List.utf8Encode_singleton]

/-- An ASCII character is its own byte. -/
theorem latin_of_lt {c : Char} (hc : c.toNat < 128) : latin (String.singleton c) = [c] := by
  have hle : c.val.toNat ≤ 127 := Nat.le_of_lt_succ hc
  have hmod : c.toNat % 256 = c.toNat := Nat.mod_eq_of_lt (by omega)
  rw [latin_singleton, String.utf8EncodeChar, if_pos hle]
  simp [hmod]

theorem toNat_ofNat_byte {n : Nat} (hn : n < 256) :
    (Char.ofNat (UInt8.ofNat n).toNat).toNat = n := by
  rw [UInt8.toNat_ofNat', Nat.mod_eq_of_lt hn, Char.toNat_ofNat, if_pos (Or.inl (by omega))]

/-- Any other character begins with a byte beyond ASCII, which is also none of the two blanks that
stand there. -/
theorem latin_of_le {c : Char} (hc : 128 ≤ c.toNat) :
    ∃ d ds, latin (String.singleton c) = d :: ds ∧ 192 ≤ d.toNat := by
  have hlt : ¬c.val.toNat ≤ 127 := Nat.not_le.mpr hc
  rw [latin_singleton, String.utf8EncodeChar, if_neg hlt]
  split
  · exact ⟨_, _, rfl, by rw [toNat_ofNat_byte] <;> omega⟩
  · split
    · exact ⟨_, _, rfl, by rw [toNat_ofNat_byte] <;> omega⟩
    · exact ⟨_, _, rfl, by rw [toNat_ofNat_byte] <;> omega⟩

/-- The bytes of a text begin with its first character, or with a byte beyond ASCII for it. -/
theorem latin_cons_cases (c : Char) (cs : List Char) :
    (c.toNat < 128 ∧ latin (String.ofList (c :: cs)) = c :: latin (String.ofList cs)) ∨
      (128 ≤ c.toNat ∧ ∃ d ds, latin (String.ofList (c :: cs)) = d :: ds ∧ 192 ≤ d.toNat) := by
  rw [String.ofList_cons, latin_append]
  rcases Nat.lt_or_ge c.toNat 128 with hc | hc
  · exact .inl ⟨hc, by rw [latin_of_lt hc, List.singleton_append]⟩
  · obtain ⟨d, ds, hds, hd⟩ := latin_of_le hc
    exact .inr ⟨hc, d, _, by rw [hds, List.cons_append], hd⟩

end Lexer

end SceneFormula
