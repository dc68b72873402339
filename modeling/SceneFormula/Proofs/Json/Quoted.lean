import SceneFormula.Json.Quoted
import Mathlib.Tactic

/-!
# Reading written strings

A string that has been written is read as itself, up to the mark that closes it.  Each character is
one piece of the written text: a control character without a letter of its own is given by its code,
and every other one by itself.
-/

namespace SceneFormula.Quoted

/-- The piece that the written form of a character is read as. -/
def pieceOf (c : Char) : Piece :=
  if (letter? c).isNone && isControl c then .code c.toNat else .char c

theorem ofLetter?_of_letter? {c e : Char} (h : letter? c = some e) : ofLetter? e = some c := by
  unfold letter? at h
  split at h <;> first | (obtain rfl := Option.some.inj h; rfl) | simp at h

theorem newline_not_mem_escape (c : Char) : '\n' ∉ escape c := by
  rw [escape]
  cases h : letter? c with
  | some e =>
    have he : '\n' ≠ e := by
      rintro rfl
      cases ofLetter?_of_letter? h
    simpa using he
  | none =>
    have hc : '\n' ≠ c := by
      rintro rfl
      cases h
    cases hcontrol : isControl c with
    | false => simpa using hc
    | true =>
      have hlt : c.toNat < 0x20 := of_decide_eq_true hcontrol
      have hdigit {d : Nat} (hd : d < 16) : '\n' ≠ d.digitChar := by
        revert d
        decide
      simp only [if_true, List.mem_cons, List.not_mem_nil, or_false, not_or]
      exact ⟨by decide, by decide, by decide, by decide, hdigit (by omega), hdigit (by omega)⟩

theorem hexDigit?_digitChar {d : Nat} (h : d < 16) : hexDigit? d.digitChar = some d := by
  revert d
  decide

theorem code?_control {c : Char} (h : isControl c = true) :
    code? '0' '0' (c.toNat / 16).digitChar (c.toNat % 16).digitChar = some c.toNat := by
  have hc : c.toNat < 0x20 := by simpa [isControl] using h
  have h₁ := hexDigit?_digitChar (d := c.toNat / 16) (by omega)
  have h₂ := hexDigit?_digitChar (d := c.toNat % 16) (by omega)
  have h₀ : hexDigit? '0' = some 0 := rfl
  simp only [code?, h₀, h₁, h₂, Option.bind_eq_bind, Option.bind_some, Option.pure_def]
  congr 1
  omega

theorem pieces_letter {c e : Char} (h : ofLetter? e = some c) (rest : List Char) :
    pieces ('\\' :: e :: rest) = (pieces rest).map fun p => (.char c :: p.1, p.2) := by
  have he : e ≠ 'u' := by
    rintro rfl
    have hu : ofLetter? 'u' = none := rfl
    simp [hu] at h
  rw [pieces]
  · rw [h]
    cases pieces rest <;> rfl
  · exact fun _ _ _ _ _ hu _ => he hu

theorem pieces_code {a b c d : Char} {n : Nat} (h : code? a b c d = some n) (rest : List Char) :
    pieces ('\\' :: 'u' :: a :: b :: c :: d :: rest) =
      (pieces rest).map fun p => (.code n :: p.1, p.2) := by
  rw [pieces, h]
  cases pieces rest <;> rfl

theorem pieces_plain {c : Char} (hq : c ≠ '\x22') (hb : c ≠ '\\') (hc : isControl c = false)
    (rest : List Char) :
    pieces (c :: rest) = (pieces rest).map fun p => (.char c :: p.1, p.2) := by
  rw [pieces]
  · simp only [hb, hc, decide_false, Bool.or_self, Bool.false_eq_true, if_false]
    cases pieces rest <;> rfl
  · exact hq
  · exact fun _ _ _ _ _ h => absurd h hb
  · exact fun _ _ h => absurd h hb

/-- A written character is read as its piece, whatever comes after it. -/
theorem pieces_escape (c : Char) (rest : List Char) :
    pieces (escape c ++ rest) = (pieces rest).map fun p => (pieceOf c :: p.1, p.2) := by
  unfold escape pieceOf
  cases hl : letter? c with
  | some e => exact pieces_letter (ofLetter?_of_letter? hl) rest
  | none =>
    cases hc : isControl c with
    | true => exact pieces_code (code?_control hc) rest
    | false =>
      refine pieces_plain ?_ ?_ hc rest
      · rintro rfl
        exact absurd hl (by decide)
      · rintro rfl
        exact absurd hl (by decide)

theorem pieces_flatMap_escape (cs rest : List Char) :
    pieces (cs.flatMap escape ++ '\x22' :: rest) = some (cs.map pieceOf, rest) := by
  induction cs with
  | nil => rfl
  | cons c cs ih =>
    rw [List.flatMap_cons, List.append_assoc, pieces_escape, ih]
    rfl

/-- No control character is half of a pair of codes. -/
theorem join_cons_pieceOf (c : Char) (ps : List Piece) :
    join (pieceOf c :: ps) = (join ps).map (c :: ·) := by
  unfold pieceOf
  split
  next h =>
    have hc : c.toNat < 0x20 := by
      simpa [isControl] using (Bool.and_eq_true_iff.mp h).2
    have hhigh : isHigh c.toNat = false := by
      simp only [isHigh, Bool.and_eq_false_iff, decide_eq_false_iff_not]
      omega
    have hlow : isLow c.toNat = false := by
      simp only [isLow, Bool.and_eq_false_iff, decide_eq_false_iff_not]
      omega
    cases ps with
    | nil => simp [join, hhigh, hlow]
    | cons p ps => cases p <;> simp [join, hhigh, hlow]
  next => simp [join]

theorem join_map_pieceOf (cs : List Char) : join (cs.map pieceOf) = some cs := by
  induction cs with
  | nil => rfl
  | cons c cs ih => rw [List.map_cons, join_cons_pieceOf, ih, Option.map_some]

theorem write_append (cs rest : List Char) :
    write cs ++ rest = '\x22' :: (cs.flatMap escape ++ '\x22' :: rest) := by
  simp [write]

/-- A written string is read as itself, with the text after its closing mark left over. -/
theorem read_write (s : String) (rest : List Char) :
    read (s.toList.flatMap escape ++ '\x22' :: rest) = some (some s, rest) := by
  simp only [read, pieces_flatMap_escape, Option.map_some, join_map_pieceOf,
    String.ofList_toList]

end SceneFormula.Quoted
