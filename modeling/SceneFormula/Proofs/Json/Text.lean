import SceneFormula.Json.Reading
import SceneFormula.Proofs.Json.Numeral
import SceneFormula.Proofs.Json.Quoted

/-!
# Reading written values

The text of a JSON value, in either layout, is read as that value: every array and object in it is
closed, every number is the numeral of its digits, and no string is missing.  The value that the
text spells is then the written one again, as long as there is room for its arrays and objects and
its numbers fit into 64 bits.
-/

namespace SceneFormula

namespace Json

mutual

/-- What the text of a value is read as. -/
def reading : Json Int → Reading
  | null => .null
  | bool b => .bool b
  | number k => .number (.ofInt k)
  | string s => .string (some s)
  | array items => .array (readingItems items) .closed
  | object members => .object (readingMembers members) .closed

def readingItems : List (Json Int) → List Reading
  | [] => []
  | j :: js => j.reading :: readingItems js

def readingMembers : List (String × Json Int) → List (Option String × Reading)
  | [] => []
  | (key, j) :: ms => (some key, j.reading) :: readingMembers ms

end

end Json

@[simp] theorem Layout.colon_inner (layout : Layout) : layout.inner.colon = layout.colon := by
  cases layout <;> rfl

/-! ### Blanks -/

namespace Reading

theorem skipBlanks_cons {c : Char} (h : isBlank c = false) (cs : List Char) :
    skipBlanks (c :: cs) = c :: cs := by
  simp [skipBlanks, h]

theorem skipBlanks_newline (layout : Layout) (cs : List Char) :
    skipBlanks (layout.newline ++ cs) = skipBlanks cs := by
  cases layout with
  | compact => rfl
  | lines depth =>
    have hspaces (n : Nat) : skipBlanks (List.replicate n ' ' ++ cs) = skipBlanks cs := by
      induction n with
      | zero => rfl
      | succ n ih => exact ih
    exact hspaces (2 * depth)

theorem skipBlanks_newline_cons (layout : Layout) {c : Char} (h : isBlank c = false)
    (cs : List Char) : skipBlanks (layout.newline ++ c :: cs) = c :: cs := by
  rw [skipBlanks_newline, skipBlanks_cons h]

theorem value_of_skipBlanks_eq {cs ds : List Char} (h : skipBlanks cs = skipBlanks ds)
    (fuel : Nat) : value fuel cs = value fuel ds := by
  cases fuel with
  | zero => simp only [value]
  | succ fuel => simp only [value, h]

/-- A value that begins with neither a bracket nor a brace is read as a scalar. -/
theorem value_of_scalar {c : Char} {cs after : List Char} {r : Reading}
    (hc : isBlank c = false ∧ c ≠ '[' ∧ c ≠ '\x7b') (h : scalar (c :: cs) = some (r, after))
    {fuel : Nat} (hf : 0 < fuel) : value fuel (c :: cs) = (r, some after) := by
  obtain ⟨fuel, rfl⟩ := Nat.exists_eq_succ_of_ne_zero hf.ne'
  obtain ⟨hblank, hbracket, hbrace⟩ := hc
  rw [value, skipBlanks_cons hblank]
  split
  next hcs => exact absurd (List.cons.inj hcs).1 hbracket
  next hcs => exact absurd (List.cons.inj hcs).1 hbrace
  next => rw [h]

theorem ne_of_begins {c d : Char} (hc : c.isDigit = true ∨ c = '-')
    (hd : d.isDigit = false ∧ d ≠ '-') : c ≠ d := by
  rintro rfl
  rcases hc with hc | hc
  · exact absurd (hd.1.symm.trans hc) (by decide)
  · exact hd.2 hc

theorem scalar_of_begins {c : Char} (hc : c.isDigit = true ∨ c = '-') (cs : List Char) :
    scalar (c :: cs) = (Numeral.read (c :: cs)).map fun p => (number p.1, p.2) := by
  unfold scalar
  split
  next h => exact absurd (List.cons.inj h).1 (ne_of_begins hc (by decide))
  next h => exact absurd (List.cons.inj h).1 (ne_of_begins hc (by decide))
  next h => exact absurd (List.cons.inj h).1 (ne_of_begins hc (by decide))
  next h => exact absurd (List.cons.inj h).1 (ne_of_begins hc (by decide))
  next => rfl

theorem isBlank_of_begins {c : Char} (hc : c.isDigit = true ∨ c = '-') : isBlank c = false := by
  have hspace : c ≠ ' ' := ne_of_begins hc (by decide)
  have hnewline : c ≠ '\n' := ne_of_begins hc (by decide)
  have hreturn : c ≠ '\r' := ne_of_begins hc (by decide)
  have htab : c ≠ '\t' := ne_of_begins hc (by decide)
  simp [isBlank, hspace, hnewline, hreturn, htab]

end Reading

/-! ### Fronts and ends of written values -/

namespace Json

theorem exists_head_writeInt (k : Int) :
    ∃ c cs, writeInt k = c :: cs ∧ (c.isDigit = true ∨ c = '-') := by
  cases k with
  | ofNat n =>
    obtain ⟨c, cs, h⟩ := List.exists_cons_of_ne_nil (Nat.toDigits_ne_nil (b := 10) (n := n))
    exact ⟨c, cs, h, .inl (Numeral.isDigit_of_mem_toDigits (h ▸ List.mem_cons_self))⟩
  | negSucc n => exact ⟨'-', _, rfl, .inr rfl⟩

/-- The text of a value begins with neither a blank nor a closing bracket. -/
theorem exists_head_write (layout : Layout) (j : Json Int) (tail : List Char) :
    ∃ c cs, write layout j tail = c :: cs ∧ Reading.isBlank c = false ∧ c ≠ ']' := by
  cases j with
  | null => exact ⟨_, _, by rw [write], by decide, by decide⟩
  | bool b => cases b <;> exact ⟨_, _, by rw [write]; rfl, by decide, by decide⟩
  | number k =>
    obtain ⟨c, cs, hcs, hc⟩ := exists_head_writeInt k
    exact ⟨c, cs ++ tail, by rw [write, hcs, List.cons_append], Reading.isBlank_of_begins hc,
      Reading.ne_of_begins hc (by decide)⟩
  | string s => exact ⟨_, _, by rw [write]; rfl, by decide, by decide⟩
  | array items => cases items <;> exact ⟨_, _, by rw [write], by decide, by decide⟩
  | object members =>
    rcases members with _ | ⟨⟨key, j⟩, ms⟩ <;> exact ⟨_, _, by rw [write], by decide, by decide⟩

theorem ends_newline_cons (layout : Layout) {c : Char} (h : c = ']' ∨ c = '\x7d')
    (tail : List Char) : Numeral.Ends (layout.newline ++ c :: tail) := by
  cases layout with
  | compact => rcases h with rfl | rfl <;> exact Numeral.ends_cons (by decide) tail
  | lines depth => exact Numeral.ends_cons (by decide) _

theorem ends_writeItems (layout : Layout) (js : List (Json Int)) {tail : List Char}
    (ht : Numeral.Ends tail) : Numeral.Ends (writeItems layout js tail) := by
  cases js with
  | nil => rwa [writeItems]
  | cons j js =>
    rw [writeItems]
    exact Numeral.ends_cons (by decide) _

theorem ends_writeMembers (layout : Layout) (ms : List (String × Json Int)) {tail : List Char}
    (ht : Numeral.Ends tail) : Numeral.Ends (writeMembers layout ms tail) := by
  rcases ms with _ | ⟨⟨key, j⟩, ms⟩
  · rwa [writeMembers]
  · rw [writeMembers]
    exact Numeral.ends_cons (by decide) _

mutual

theorem length_lt_write (layout : Layout) (j : Json Int) (tail : List Char) :
    tail.length < (write layout j tail).length := by
  cases j with
  | null => simp only [write, List.length_cons]; omega
  | bool b => cases b <;> simp [write, writeBool] <;> omega
  | number k =>
    obtain ⟨c, cs, h, -⟩ := exists_head_writeInt k
    simp only [write, h, List.length_append, List.length_cons]
    omega
  | string s => simp [write, Quoted.write]; omega
  | array items =>
    cases items with
    | nil => simp [write]
    | cons j js =>
      have hj := length_lt_write layout.inner j
        (writeItems layout.inner js (layout.newline ++ ']' :: tail))
      have hjs := length_le_writeItems layout.inner js (layout.newline ++ ']' :: tail)
      simp only [write, List.length_cons, List.length_append] at hj hjs ⊢
      omega
  | object members =>
    match members with
    | [] => simp [write]
    | (key, j) :: ms =>
      have hj := length_lt_write layout.inner j
        (writeMembers layout.inner ms (layout.newline ++ '\x7d' :: tail))
      have hms := length_le_writeMembers layout.inner ms (layout.newline ++ '\x7d' :: tail)
      simp only [write, List.length_cons, List.length_append] at hj hms ⊢
      omega

theorem length_le_writeItems (layout : Layout) (js : List (Json Int)) (tail : List Char) :
    tail.length ≤ (writeItems layout js tail).length := by
  match js with
  | [] => simp [writeItems]
  | j :: js =>
    have hj := length_lt_write layout j (writeItems layout js tail)
    have hjs := length_le_writeItems layout js tail
    simp only [writeItems, List.length_cons, List.length_append]
    omega

theorem length_le_writeMembers (layout : Layout) (ms : List (String × Json Int))
    (tail : List Char) : tail.length ≤ (writeMembers layout ms tail).length := by
  match ms with
  | [] => simp [writeMembers]
  | (key, j) :: ms =>
    have hj := length_lt_write layout j (writeMembers layout ms tail)
    have hms := length_le_writeMembers layout ms tail
    simp only [writeMembers, List.length_cons, List.length_append]
    omega

end

mutual

theorem write_append (layout : Layout) (j : Json Int) (tail rest : List Char) :
    write layout j (tail ++ rest) = write layout j tail ++ rest := by
  match j with
  | .null | .array [] | .object [] => simp only [write, List.cons_append]
  | .bool b | .number k | .string s => simp only [write, List.append_assoc]
  | .array (j :: js) =>
    have hclose : layout.newline ++ ']' :: (tail ++ rest) =
        (layout.newline ++ ']' :: tail) ++ rest := by simp
    rw [write, write, hclose, writeItems_append, write_append, List.cons_append, List.append_assoc]
  | .object ((key, j) :: ms) =>
    have hclose : layout.newline ++ '\x7d' :: (tail ++ rest) =
        (layout.newline ++ '\x7d' :: tail) ++ rest := by simp
    rw [write, write, hclose, writeMembers_append, write_append]
    simp only [List.cons_append, List.append_assoc]

theorem writeItems_append (layout : Layout) (js : List (Json Int)) (tail rest : List Char) :
    writeItems layout js (tail ++ rest) = writeItems layout js tail ++ rest := by
  match js with
  | [] => rfl
  | j :: js =>
    rw [writeItems, writeItems, writeItems_append, write_append, List.cons_append,
      List.append_assoc]

theorem writeMembers_append (layout : Layout) (ms : List (String × Json Int))
    (tail rest : List Char) :
    writeMembers layout ms (tail ++ rest) = writeMembers layout ms tail ++ rest := by
  match ms with
  | [] => rfl
  | (key, j) :: ms =>
    rw [writeMembers, writeMembers, writeMembers_append, write_append]
    simp only [List.cons_append, List.append_assoc]

end

theorem newline_not_mem_writeInt (k : Int) : '\n' ∉ writeInt k := by
  have hdigits (n : Nat) : '\n' ∉ Nat.toDigits 10 n :=
    fun h => absurd (Numeral.isDigit_of_mem_toDigits h) (by decide)
  cases k with
  | ofNat n => exact hdigits n
  | negSucc n => simpa [writeInt] using hdigits (n + 1)

theorem newline_not_mem_writeString (s : List Char) : '\n' ∉ Quoted.write s := by
  simp [Quoted.write, Quoted.newline_not_mem_escape]

mutual

theorem newline_not_mem_write (j : Json Int) {tail : List Char} (ht : '\n' ∉ tail) :
    '\n' ∉ write .compact j tail := by
  match j with
  | .null | .array [] | .object [] => simpa [write] using ht
  | .bool b => cases b <;> simpa [write, writeBool] using ht
  | .number k => simpa [write] using ⟨newline_not_mem_writeInt k, ht⟩
  | .string s => simpa [write] using ⟨newline_not_mem_writeString s.toList, ht⟩
  | .array (j :: js) =>
    have hclose : '\n' ∉ ']' :: tail := by simpa using ht
    have hrest := newline_not_mem_write j (newline_not_mem_writeItems js hclose)
    simpa [write, Layout.inner, Layout.newline] using hrest
  | .object ((key, j) :: ms) =>
    have hclose : '\n' ∉ '\x7d' :: tail := by simpa using ht
    have hrest := newline_not_mem_write j (newline_not_mem_writeMembers ms hclose)
    simpa [write, Layout.inner, Layout.newline, Layout.colon] using
      ⟨newline_not_mem_writeString key.toList, hrest⟩

theorem newline_not_mem_writeItems (js : List (Json Int)) {tail : List Char} (ht : '\n' ∉ tail) :
    '\n' ∉ writeItems .compact js tail := by
  match js with
  | [] => exact ht
  | j :: js =>
    have hrest := newline_not_mem_write j (newline_not_mem_writeItems js ht)
    simpa [writeItems, Layout.newline] using hrest

theorem newline_not_mem_writeMembers (ms : List (String × Json Int)) {tail : List Char}
    (ht : '\n' ∉ tail) : '\n' ∉ writeMembers .compact ms tail := by
  match ms with
  | [] => exact ht
  | (key, j) :: ms =>
    have hrest := newline_not_mem_write j (newline_not_mem_writeMembers ms ht)
    simpa [writeMembers, Layout.newline, Layout.colon] using
      ⟨newline_not_mem_writeString key.toList, hrest⟩

end

end Json

/-! ### Reading what was written -/

namespace Reading

open Json

/-- The text of a value may begin on a new line. -/
theorem value_newline (layout : Layout) (cs : List Char) (fuel : Nat) :
    value fuel (layout.newline ++ cs) = value fuel cs :=
  value_of_skipBlanks_eq (skipBlanks_newline layout cs) fuel

/-- What stands after a key's closing mark: a colon, and the value at most a blank later. -/
theorem skipBlanks_colon (layout : Layout) (cs : List Char) :
    ∃ ds, skipBlanks (layout.colon ++ cs) = ':' :: ds ∧ ∀ fuel, value fuel ds = value fuel cs := by
  cases layout with
  | compact => exact ⟨cs, rfl, fun fuel => rfl⟩
  | lines depth => exact ⟨' ' :: cs, rfl, value_of_skipBlanks_eq rfl⟩

theorem members_of_value {layout : Layout} {key : String} {cs after : List Char} {r : Reading}
    {fuel : Nat} (h : value fuel cs = (r, some after)) {ms : List (Option String × Reading)}
    {tail : List Char}
    (hafter : skipBlanks after = '\x7d' :: tail ∧ ms = [] ∨
      ∃ rest text, skipBlanks after = ',' :: rest ∧ skipBlanks rest = '\x22' :: text ∧
        members fuel text = (ms, some tail)) :
    members (fuel + 1) (key.toList.flatMap Quoted.escape ++ '\x22' :: (layout.colon ++ cs)) =
      ((some key, r) :: ms, some tail) := by
  obtain ⟨ds, hcolon, hds⟩ := skipBlanks_colon layout cs
  rw [members, Quoted.read_write]
  simp only [hcolon]
  rw [hds, h]
  rcases hafter with ⟨hafter, rfl⟩ | ⟨rest, text, hafter, hrest, hms⟩
  · simp only [hafter]
  · simp only [hafter, hrest, hms]

theorem value_writeInt (k : Int) {tail : List Char} (ht : Numeral.Ends tail) {fuel : Nat}
    (hf : 0 < fuel) : value fuel (writeInt k ++ tail) = (number (.ofInt k), some tail) := by
  obtain ⟨c, cs, hcs, hc⟩ := exists_head_writeInt k
  have hread := Numeral.read_writeInt k ht
  rw [hcs, List.cons_append] at hread ⊢
  have hhead : isBlank c = false ∧ c ≠ '[' ∧ c ≠ '\x7b' :=
    ⟨isBlank_of_begins hc, ne_of_begins hc (by decide), ne_of_begins hc (by decide)⟩
  apply value_of_scalar hhead _ hf
  rw [scalar_of_begins hc, hread]
  rfl

theorem value_writeString (s : String) (tail : List Char) {fuel : Nat} (hf : 0 < fuel) :
    value fuel (Quoted.write s.toList ++ tail) = (string (some s), some tail) := by
  have hread := Quoted.read_write s tail
  rw [Quoted.write_append]
  apply value_of_scalar (by decide) _ hf
  rw [scalar, hread]
  rfl

theorem value_bracket {cs rest : List Char} {c : Char} (hcs : skipBlanks cs = c :: rest)
    (hc : c ≠ ']') (fuel : Nat) {rs : List Reading} {after : List Char}
    (h : items fuel (c :: rest) = (rs, some after)) :
    value (fuel + 1) ('[' :: cs) = (array rs .closed, some after) := by
  rw [value, skipBlanks_cons (by decide)]
  simp only [hcs]
  split
  next hrest => exact absurd (List.cons.inj hrest).1 hc
  next => simp only [h, endingBefore]

theorem value_brace {cs rest : List Char} (hcs : skipBlanks cs = '\x22' :: rest) (fuel : Nat)
    {ms : List (Option String × Reading)} {after : List Char}
    (h : members fuel rest = (ms, some after)) :
    value (fuel + 1) ('\x7b' :: cs) = (object ms .closed, some after) := by
  rw [value, skipBlanks_cons (by decide)]
  simp only [hcs, h, endingBefore]

mutual

/-- With two units of fuel for each character, a written value is read as it was, with the text
after it left over. -/
theorem value_write (layout : Layout) (j : Json Int) {tail : List Char} (ht : Numeral.Ends tail)
    (fuel : Nat) (hf : 2 * (write layout j tail).length ≤ fuel) :
    value fuel (write layout j tail) = (j.reading, some tail) := by
  have hlen := length_lt_write layout j tail
  match j with
  | .null =>
    rw [write]
    exact value_of_scalar (by decide) rfl (by omega)
  | .bool b =>
    rw [write]
    cases b <;> exact value_of_scalar (by decide) rfl (by omega)
  | .number k =>
    rw [write]
    exact value_writeInt k ht (by omega)
  | .string s =>
    rw [write]
    exact value_writeString s tail (by omega)
  | .array [] =>
    obtain ⟨fuel, rfl⟩ := Nat.exists_eq_succ_of_ne_zero (n := fuel) (by omega)
    rw [write, value, skipBlanks_cons (by decide)]
    rfl
  | .array (j :: js) =>
    -- The bracket pays for two calls: of the array itself, and of the list of its items.
    obtain ⟨fuel, rfl⟩ := Nat.exists_eq_succ_of_ne_zero (n := fuel) (by omega)
    obtain ⟨fuel, rfl⟩ := Nat.exists_eq_succ_of_ne_zero (n := fuel) (by omega)
    rw [write] at hf ⊢
    set rest := writeItems layout.inner js (layout.newline ++ ']' :: tail) with hrest
    have hends : Numeral.Ends rest :=
      ends_writeItems layout.inner js (ends_newline_cons layout (.inl rfl) tail)
    have hlt := length_lt_write layout.inner j rest
    simp only [List.length_cons, List.length_append] at hf
    have hj := value_write layout.inner j hends fuel (by omega)
    have hitems := items_writeItems layout.inner layout js (by rw [← hrest]; omega) (hrest ▸ hj)
    obtain ⟨c, cs, hcs, hblank, hc⟩ := exists_head_write layout.inner j rest
    rw [hcs] at hitems ⊢
    rw [value_bracket (skipBlanks_newline_cons layout.inner hblank cs) hc _ hitems, reading,
      readingItems]
  | .object [] =>
    obtain ⟨fuel, rfl⟩ := Nat.exists_eq_succ_of_ne_zero (n := fuel) (by omega)
    rw [write, value, skipBlanks_cons (by decide)]
    rfl
  | .object ((key, j) :: ms) =>
    obtain ⟨fuel, rfl⟩ := Nat.exists_eq_succ_of_ne_zero (n := fuel) (by omega)
    obtain ⟨fuel, rfl⟩ := Nat.exists_eq_succ_of_ne_zero (n := fuel) (by omega)
    rw [write] at hf ⊢
    set rest := writeMembers layout.inner ms (layout.newline ++ '\x7d' :: tail) with hrest
    have hends : Numeral.Ends rest :=
      ends_writeMembers layout.inner ms (ends_newline_cons layout (.inr rfl) tail)
    have hlt := length_lt_write layout.inner j rest
    simp only [List.length_cons, List.length_append] at hf
    have hj := value_write layout.inner j hends fuel (by omega)
    have hmembers := members_writeMembers layout.inner layout key ms (by rw [← hrest]; omega)
      (hrest ▸ hj)
    rw [layout.colon_inner, ← hrest] at hmembers
    rw [List.append_assoc, List.append_assoc, Quoted.write_append,
      value_brace (skipBlanks_newline_cons layout.inner rfl _) _ hmembers, reading,
      readingMembers]

/-- The items after one that has been read. -/
theorem items_writeItems (layout outer : Layout) (js : List (Json Int)) {tail : List Char}
    {fuel : Nat}
    (hf : 2 * (writeItems layout js (outer.newline ++ ']' :: tail)).length ≤ fuel)
    {cs : List Char} {r : Reading}
    (h : value fuel cs = (r, some (writeItems layout js (outer.newline ++ ']' :: tail)))) :
    items (fuel + 1) cs = (r :: readingItems js, some tail) := by
  match js with
  | [] =>
    rw [writeItems] at h
    rw [items, h]
    simp only [skipBlanks_newline_cons outer (c := ']') rfl, readingItems]
  | j :: js =>
    rw [writeItems] at h hf
    set rest := writeItems layout js (outer.newline ++ ']' :: tail) with hrest
    have hends : Numeral.Ends rest :=
      ends_writeItems layout js (ends_newline_cons outer (.inl rfl) tail)
    have hlt := length_lt_write layout j rest
    simp only [List.length_cons, List.length_append] at hf
    obtain ⟨fuel, rfl⟩ := Nat.exists_eq_succ_of_ne_zero (n := fuel) (by omega)
    have hj : value fuel (layout.newline ++ write layout j rest) = (j.reading, some rest) :=
      (value_newline layout _ fuel).trans (value_write layout j hends fuel (by omega))
    have hjs := items_writeItems layout outer js (by rw [← hrest]; omega) (hrest ▸ hj)
    rw [items, h]
    simp only [skipBlanks_cons (c := ',') rfl, hrest, hjs, readingItems]

/-- The members after one whose key and value have been read. -/
theorem members_writeMembers (layout outer : Layout) (key : String)
    (ms : List (String × Json Int)) {tail : List Char} {fuel : Nat}
    (hf : 2 * (writeMembers layout ms (outer.newline ++ '\x7d' :: tail)).length ≤ fuel)
    {cs : List Char} {r : Reading}
    (h : value fuel cs = (r, some (writeMembers layout ms (outer.newline ++ '\x7d' :: tail)))) :
    members (fuel + 1) (key.toList.flatMap Quoted.escape ++ '\x22' :: (layout.colon ++ cs)) =
      ((some key, r) :: readingMembers ms, some tail) := by
  match ms with
  | [] =>
    rw [writeMembers] at h
    exact members_of_value h (.inl ⟨skipBlanks_newline_cons outer rfl tail, rfl⟩)
  | (key', j) :: ms =>
    rw [writeMembers] at h hf
    set rest := writeMembers layout ms (outer.newline ++ '\x7d' :: tail) with hrest
    have hends : Numeral.Ends rest :=
      ends_writeMembers layout ms (ends_newline_cons outer (.inr rfl) tail)
    have hlt := length_lt_write layout j rest
    simp only [List.length_cons, List.length_append] at hf
    obtain ⟨fuel, rfl⟩ := Nat.exists_eq_succ_of_ne_zero (n := fuel) (by omega)
    have hj := value_write layout j hends fuel (by omega)
    have hms := members_writeMembers layout outer key' ms (by rw [← hrest]; omega)
      (hrest ▸ hj)
    refine members_of_value h (.inr ⟨_, _, skipBlanks_cons rfl _, ?_, hms⟩)
    rw [List.append_assoc, List.append_assoc, Quoted.write_append,
      skipBlanks_newline_cons layout rfl]

end

theorem read_write_append (layout : Layout) (j : Json Int) {tail : List Char}
    (ht : Numeral.Ends tail) : read (j.write layout [] ++ tail) = (j.reading, some tail) := by
  rw [← Json.write_append, List.nil_append]
  exact value_write layout j ht _ (Nat.le_succ _)

theorem read_write (layout : Layout) (j : Json Int) :
    read (j.write layout []) = (j.reading, some []) := by
  simpa using read_write_append layout j Numeral.ends_nil

theorem ends_of_isBlank {cs : List Char} (h : ∀ c ∈ cs, isBlank c = true) : Numeral.Ends cs := by
  intro c hc
  have hblank := h c (List.mem_of_mem_head? hc)
  simp only [isBlank, Bool.or_eq_true, decide_eq_true_eq] at hblank
  rcases hblank with ((rfl | rfl) | rfl) | rfl <;> decide

end Reading

/-! ### The value that a written text spells -/

namespace Json

mutual

/-- The number of arrays and objects that are open at once. -/
def depth {ν : Type} : Json ν → Nat
  | array items => depthItems items + 1
  | object members => depthMembers members + 1
  | _ => 0

def depthItems {ν : Type} : List (Json ν) → Nat
  | [] => 0
  | j :: js => max j.depth (depthItems js)

def depthMembers {ν : Type} : List (String × Json ν) → Nat
  | [] => 0
  | (_, j) :: ms => max j.depth (depthMembers ms)

end

mutual

/-- Every number fits into 64 bits, signed below zero. -/
def Fits : Json Int → Prop
  | number k => -9223372036854775808 ≤ k ∧ k ≤ 18446744073709551615
  | array items => FitsItems items
  | object members => FitsMembers members
  | _ => True

def FitsItems : List (Json Int) → Prop
  | [] => True
  | j :: js => j.Fits ∧ FitsItems js

def FitsMembers : List (String × Json Int) → Prop
  | [] => True
  | (_, j) :: ms => j.Fits ∧ FitsMembers ms

end

theorem mapMembers_append {ν μ : Type} (f : ν → μ) (ms ns : List (String × Json ν)) :
    mapMembers f (ms ++ ns) = mapMembers f ms ++ mapMembers f ns := by
  induction ms with
  | nil => rfl
  | cons m ms ih => rw [List.cons_append, mapMembers, mapMembers, ih, List.cons_append]

theorem depthMembers_append {ν : Type} (ms ns : List (String × Json ν)) :
    depthMembers (ms ++ ns) = max (depthMembers ms) (depthMembers ns) := by
  induction ms with
  | nil => simp [depthMembers]
  | cons m ms ih => rw [List.cons_append, depthMembers, depthMembers, ih, max_assoc]

theorem fitsMembers_append {ms ns : List (String × Json Int)} (hms : FitsMembers ms)
    (hns : FitsMembers ns) : FitsMembers (ms ++ ns) := by
  induction ms with
  | nil => exact hns
  | cons m ms ih => exact ⟨hms.1, ih hms.2⟩

mutual

/-- A value that was written can be had back exactly if there is room for it. -/
theorem json?_reading (j : Json Int) (hj : j.Fits) (room : Nat) :
    j.reading.json? room = if j.depth ≤ room then some (j.mapNumbers .integer) else none := by
  match j with
  | null => rfl
  | bool b => rfl
  | number k =>
    rw [reading, Reading.json?, Numeral.value?_ofInt hj.1 hj.2]
    rfl
  | string s => rfl
  | array items =>
    cases room with
    | zero => rfl
    | succ room =>
      rw [reading, Reading.json?, jsonItems?_reading items hj room]
      simp only [depth, Nat.succ_le_succ_iff, mapNumbers]
      split <;> rfl
  | object members =>
    cases room with
    | zero => rfl
    | succ room =>
      rw [reading, Reading.json?, jsonMembers?_reading members hj room]
      simp only [depth, Nat.succ_le_succ_iff, mapNumbers]
      split <;> rfl

theorem jsonItems?_reading (js : List (Json Int)) (hjs : FitsItems js) (room : Nat) :
    Reading.jsonItems? room (readingItems js) =
      if depthItems js ≤ room then some (mapItems .integer js) else none := by
  match js with
  | [] => rfl
  | j :: js =>
    rw [readingItems, Reading.jsonItems?, json?_reading j hjs.1, jsonItems?_reading js hjs.2]
    simp only [depthItems, max_le_iff, mapItems]
    by_cases hj : j.depth ≤ room <;> by_cases hd : depthItems js ≤ room <;> simp [hj, hd]

theorem jsonMembers?_reading (ms : List (String × Json Int)) (hms : FitsMembers ms) (room : Nat) :
    Reading.jsonMembers? room (readingMembers ms) =
      if depthMembers ms ≤ room then some (mapMembers .integer ms) else none := by
  match ms with
  | [] => rfl
  | (key, j) :: ms =>
    rw [readingMembers, Reading.jsonMembers?, json?_reading j hms.1, jsonMembers?_reading ms hms.2]
    simp only [depthMembers, max_le_iff, mapMembers]
    by_cases hj : j.depth ≤ room <;> by_cases hd : depthMembers ms ≤ room <;> simp [hj, hd]

end

/-- A written text spells the value that was written, if there is room for its arrays and
objects, and nothing otherwise.  Blanks after it do not count. -/
theorem ofText?_write_append (layout : Layout) (j : Json Int) (hj : j.Fits) (room : Nat)
    {tail : List Char} (ht : ∀ c ∈ tail, Reading.isBlank c = true) :
    ofText? room (String.ofList (j.write layout [] ++ tail)) =
      if j.depth ≤ room then some (j.mapNumbers .integer) else none := by
  have hlast : Reading.isLast (some tail) = true := List.all_eq_true.mpr ht
  rw [ofText?, String.toList_ofList, Reading.read_write_append layout j (Reading.ends_of_isBlank ht)]
  simp only [hlast, if_true]
  exact json?_reading j hj room

theorem ofText?_write (layout : Layout) (j : Json Int) (hj : j.Fits) (room : Nat) :
    ofText? room (String.ofList (j.write layout [])) =
      if j.depth ≤ room then some (j.mapNumbers .integer) else none := by
  simpa using ofText?_write_append layout j hj room (List.forall_mem_nil _)

end Json

end SceneFormula
