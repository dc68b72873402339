import SceneFormula.Proofs.Parsing
import SceneFormula.Proofs.Spelling
import SceneFormula.Proofs.Storage

/-!
# Printing expressions

An expression is printed with the fewest parentheses that the levels of its operators ask for.  The
tokens are a phrase of the grammar that spells the expression again, at a cost of two for each node
of the longest path, and no two of them run together when they are written down.
-/

namespace SceneFormula

open Grammar (Derives)

/-! ### Writing phrases down -/

namespace Token

/-- The token begins with no sign that could be the second one of another token. -/
def Begins (t : Token) : Prop := ∀ d ∈ t.spelling.head?, d ∉ secondSigns

/-- The token begins with neither a letter nor a digit. -/
def Separates (t : Token) : Prop := ∀ d ∈ t.spelling.head?, Lexer.isWordChar d = false

/-- The token goes on with letters and digits at most. -/
def Ends (t : Token) : Prop := ∀ d, t.goesOnWith d = true → Lexer.isWordChar d = true

theorem Ends.mayPrecede {t u : Token} (ht : t.Ends) (hu : u.Separates) : t.MayPrecede u := by
  intro d hd
  rw [Bool.eq_false_iff]
  intro hgoes
  exact absurd ((hu d hd).symm.trans (ht d hgoes)) (by decide)

theorem mayPrecede_of_begins {t u : Token} (ht : t.isWord = false) (hu : u.Begins) :
    t.MayPrecede u := by
  intro d hd
  rw [Bool.eq_false_iff]
  exact fun hgoes => hu d hd (mem_secondSigns_of_goesOnWith ht hgoes)

theorem begins_number (n : Int64) : (number n).Begins := by
  intro d hd
  have hmem : d ∈ Nat.toDigits 10 n.toNatClampNeg := List.mem_of_mem_head? hd
  have hdigit := Nat.isDigit_of_mem_toDigits (by decide) (by decide) hmem
  exact not_mem_secondSigns (isWordChar_of_isDigit hdigit)

theorem begins_truth (b : Bool) : (truth b).Begins := by
  cases b <;> rintro d ⟨⟩ <;> decide

theorem hasSpelling_unaryCall {name : String} {op : UnaryOp}
    (h : (name, op) ∈ Grammar.unaryCalls) : (ident name).HasSpelling := by
  simp only [Grammar.unaryCalls, List.mem_cons, List.not_mem_nil, or_false, Prod.mk.injEq] at h
  rcases h with ⟨rfl, rfl⟩ | ⟨rfl, rfl⟩ | ⟨rfl, rfl⟩
  · exact ⟨⟨'a', ['b', 's'], rfl, rfl, List.all_eq_true.mp rfl⟩, rfl⟩
  · exact ⟨⟨'r', ['n', 'd'], rfl, rfl, List.all_eq_true.mp rfl⟩, rfl⟩
  · exact ⟨⟨'i', ['s', 'q', 'r', 't'], rfl, rfl, List.all_eq_true.mp rfl⟩, rfl⟩

theorem hasSpelling_binaryCall {name : String} {op : BinaryOp}
    (h : (name, op) ∈ Grammar.binaryCalls) : (ident name).HasSpelling := by
  simp only [Grammar.binaryCalls, List.mem_cons, List.not_mem_nil, or_false, Prod.mk.injEq] at h
  rcases h with ⟨rfl, rfl⟩ | ⟨rfl, rfl⟩ | ⟨rfl, rfl⟩
  · exact ⟨⟨'m', ['i', 'n'], rfl, rfl, List.all_eq_true.mp rfl⟩, rfl⟩
  · exact ⟨⟨'m', ['a', 'x'], rfl, rfl, List.all_eq_true.mp rfl⟩, rfl⟩
  · exact ⟨⟨'a', ['t', 'a', 'n', '2'], rfl, rfl, List.all_eq_true.mp rfl⟩, rfl⟩

theorem begins_ident {name : String} (h : (ident name).HasSpelling) : (ident name).Begins := by
  obtain ⟨⟨c, cs, hname, hc, -⟩, -⟩ := h
  intro d hd
  have hhead : name.toList.head? = some d := hd
  rw [hname] at hhead
  cases hhead
  exact not_mem_secondSigns (Lexer.isWordChar_of_isWordStart hc)

theorem isWord_of_binary? {t : Token} {k : Nat} {op : BinaryOp} (h : t.binary? = some (k, op)) :
    t.isWord = false := by
  cases t <;> first | rfl | cases h

theorem separates_of_binary? {t : Token} {k : Nat} {op : BinaryOp}
    (h : t.binary? = some (k, op)) : t.Separates := by
  cases t <;> first | (rintro d ⟨⟩; rfl) | cases h

theorem ends_of_isWord {t : Token} (h : t.isWord = true) : t.Ends :=
  fun _ => isWordChar_of_goesOnWith h

end Token

/-- The tokens can be written side by side, and so can the ones around them. -/
structure Writable (ts : List Token) : Prop where
  nonempty : ts ≠ []
  chain : ts.IsChain Token.MayPrecede
  begins : ∀ t ∈ ts.head?, t.Begins
  ends : ∀ t ∈ ts.getLast?, t.Ends

namespace Writable

variable {t : Token} {ts us : List Token}

theorem singleton (hbegins : t.Begins) (hends : t.Ends) : Writable [t] where
  nonempty := List.cons_ne_nil t []
  chain := .singleton t
  begins := by simpa using hbegins
  ends := by simpa using hends

theorem cons (ht : t.Begins) (hts : Writable ts) (h : ∀ u ∈ ts.head?, t.MayPrecede u) :
    Writable (t :: ts) where
  nonempty := List.cons_ne_nil t ts
  chain := hts.chain.cons h
  begins := by simpa using ht
  ends := by
    rw [List.getLast?_cons_of_ne_nil hts.nonempty]
    exact hts.ends

theorem sign (ht : t.Begins) (hword : t.isWord = false) (hts : Writable ts) : Writable (t :: ts) :=
  hts.cons ht fun u hu => Token.mayPrecede_of_begins hword (hts.begins u hu)

theorem between (hts : Writable ts) (ht : t.isWord = false ∧ t.Separates) (hus : Writable us) :
    Writable (ts ++ t :: us) where
  nonempty := by simp
  chain := by
    have hchain : (t :: us).IsChain Token.MayPrecede :=
      hus.chain.cons fun u hu => Token.mayPrecede_of_begins ht.1 (hus.begins u hu)
    refine hts.chain.append hchain fun s hs u hu => ?_
    obtain rfl : t = u := Option.some.inj hu
    exact (hts.ends s hs).mayPrecede ht.2
  begins := by
    rw [List.head?_append_of_ne_nil ts hts.nonempty]
    exact hts.begins
  ends := by
    rw [List.getLast?_append_of_ne_nil ts (List.cons_ne_nil t us),
      List.getLast?_cons_of_ne_nil hus.nonempty]
    exact hus.ends

theorem enclosed (hts : Writable ts) : Writable (.leftParen :: ts ++ [.rightParen]) := by
  have hseparates : Token.rightParen.Separates := by
    rintro d ⟨⟩
    rfl
  have hclosed : Writable (ts ++ [.rightParen]) :=
    { nonempty := by simp
      chain := hts.chain.append (.singleton _) fun s hs u hu => by
        obtain rfl : Token.rightParen = u := Option.some.inj hu
        exact (hts.ends s hs).mayPrecede hseparates
      begins := by
        rw [List.head?_append_of_ne_nil ts hts.nonempty]
        exact hts.begins
      ends := by
        rw [List.getLast?_append_of_ne_nil ts (List.cons_ne_nil _ _)]
        rintro u ⟨⟩ d ⟨⟩ }
  refine hclosed.sign ?_ rfl
  rintro d ⟨⟩
  decide

theorem call {name : String} (hname : (Token.ident name).Begins) (hts : Writable ts) :
    Writable (.ident name :: .leftParen :: ts ++ [.rightParen]) := by
  refine hts.enclosed.cons hname fun u hu => ?_
  obtain rfl : Token.leftParen = u := Option.some.inj hu
  apply (Token.ends_of_isWord rfl).mayPrecede
  rintro d ⟨⟩
  rfl

end Writable

theorem Grammar.Derives.writable {p : Grammar.Phrase} {ts : List Token} {e : Expr} {c : Nat}
    (h : Derives p ts e c) : Writable ts := by
  induction h with
  | number n => exact .singleton (Token.begins_number n) (Token.ends_of_isWord rfl)
  | yes => exact .singleton (Token.begins_truth true) (Token.ends_of_isWord rfl)
  | no => exact .singleton (Token.begins_truth false) (Token.ends_of_isWord rfl)
  | reference id =>
    refine .singleton ?_ fun d hd => nomatch hd
    rintro d ⟨⟩
    decide
  | parenthesised _ ih => exact ih.enclosed
  | unaryCall hop _ ih => exact ih.call (Token.begins_ident (Token.hasSpelling_unaryCall hop))
  | binaryCall hop _ _ iha ihb =>
    have hcomma : Token.comma.isWord = false ∧ Token.comma.Separates := by
      refine ⟨rfl, ?_⟩
      rintro d ⟨⟩
      rfl
    have hname := Token.begins_ident (Token.hasSpelling_binaryCall hop)
    simpa using (iha.between hcomma ihb).call hname
  | operand _ ih | tighter _ ih => exact ih
  | minus _ ih | bang _ ih | tilde _ ih =>
    refine ih.sign ?_ rfl
    rintro d ⟨⟩
    decide
  | between hrow hop _ _ ihl ihr =>
    have hbinary := Grammar.binary?_eq_some_iff.mpr ⟨_, hrow, hop⟩
    exact ihl.between ⟨Token.isWord_of_binary? hbinary, Token.separates_of_binary? hbinary⟩ ihr

/-- A phrase that the budget covers is read again, however it is written down. -/
theorem Expr.ofText?_of_derives {ts : List Token} {e : Expr} {c : Nat}
    (hd : Derives (.level 10) ts e c) (hc : c ≤ 256) (hts : ∀ t ∈ ts, t.HasSpelling)
    {text : String} (htext : Spells ts text.toList) : ofText? text = .ok e := by
  obtain ⟨ls, hls, htokens⟩ := htext.exists_lexemes hts hd.writable.chain 0
  rw [ofText?_eq_ok_iff hls, htokens]
  exact Parser.parse_eq_ok_iff.mpr ⟨c, hc, hd⟩

/-! ### The printer -/

/-- The token and the row of an operator that stands between its operands; the others are called by
their names. -/
def BinaryOp.sign? : BinaryOp → Option (Token × Nat)
  | mul => some (.star, 0)
  | div => some (.slash, 0)
  | rem => some (.percent, 0)
  | add => some (.plus, 1)
  | sub => some (.minus, 1)
  | shiftLeft => some (.shiftLeft, 2)
  | shiftRight => some (.shiftRight, 2)
  | lt => some (.less, 3)
  | le => some (.lessEqual, 3)
  | gt => some (.greater, 3)
  | ge => some (.greaterEqual, 3)
  | eq => some (.equal, 4)
  | ne => some (.notEqual, 4)
  | bitAnd => some (.ampersand, 5)
  | bitXor => some (.caret, 6)
  | bitOr => some (.pipe, 7)
  | and => some (.andAnd, 8)
  | or => some (.orOr, 9)
  | min | max | angle => none

/-- The token of an operator that stands before its operand. -/
def UnaryOp.sign? : UnaryOp → Option Token
  | not => some .bang
  | complement => some .tilde
  | abs | sqrt | random => none

namespace Expr

/-- The tokens of an expression in a place where operators of the rows below `limit` may stand
without parentheses.  On its left an operator leaves room for its own row, on its right only for
tighter ones, and operators before an operand leave room for none. -/
def tokens : Nat → Expr → List Token
  | _, number n => [.number n]
  | _, var id => [.reference id]
  | _, truth b => [.truth b]
  | _, property _ _ => []
  | limit, binary op l r =>
    match op.sign? with
    | some (t, row) =>
      let ts := l.tokens (row + 1) ++ t :: r.tokens row
      if row < limit then ts else .leftParen :: ts ++ [.rightParen]
    | none =>
      .ident op.tag :: .leftParen :: l.tokens 10 ++ .comma :: r.tokens 10 ++ [.rightParen]
  | _, unary op x =>
    match op.sign? with
    | some t => t :: x.tokens 0
    | none => .ident op.tag :: .leftParen :: x.tokens 10 ++ [.rightParen]

/-- The text of an expression, without blanks. -/
def print (e : Expr) : String := String.ofList ((e.tokens 10).flatMap Token.spelling)

/-- The expressions that a text can spell: their numbers are not negative, and their variables have
ids that stand for themselves. -/
inductive IsPrintable : Expr → Prop
  | number {n : Int64} (h : 0 ≤ n) : IsPrintable (number n)
  | var {id : String} (h : Reference.IsId id.toList) : IsPrintable (var id)
  | binary {op : BinaryOp} {l r : Expr} (hl : IsPrintable l) (hr : IsPrintable r) :
      IsPrintable (binary op l r)
  | unary {op : UnaryOp} {x : Expr} (hx : IsPrintable x) : IsPrintable (unary op x)

end Expr

namespace Grammar

/-- What tokens that have a spelling spell can be printed again. -/
theorem Derives.isPrintable {p : Phrase} {ts : List Token} {e : Expr} {c : Nat}
    (h : Derives p ts e c) (hts : ∀ t ∈ ts, t.HasSpelling) : e.IsPrintable := by
  induction h with
  | number n => exact .number (hts _ List.mem_cons_self)
  | yes | no => exact .number (by decide)
  | reference id => exact .var (hts _ List.mem_cons_self)
  | parenthesised _ ih => exact ih fun t ht => hts t (by simp [ht])
  | unaryCall _ _ ih => exact .unary (ih fun t ht => hts t (by simp [ht]))
  | binaryCall _ _ _ iha ihb =>
    exact .binary (iha fun t ht => hts t (by simp [ht])) (ihb fun t ht => hts t (by simp [ht]))
  | operand _ ih | tighter _ ih => exact ih hts
  | minus _ ih => exact .binary (.number (by decide)) (ih fun t ht => hts t (by simp [ht]))
  | bang _ ih | tilde _ ih => exact .unary (ih fun t ht => hts t (by simp [ht]))
  | between _ _ _ _ ihl ihr =>
    exact .binary (ihl fun t ht => hts t (by simp [ht])) (ihr fun t ht => hts t (by simp [ht]))

theorem Derives.loosen {j k : Nat} (hjk : j ≤ k) {ts : List Token} {e : Expr} {c : Nat}
    (h : Derives (.level j) ts e c) : Derives (.level k) ts e c := by
  induction hjk with
  | refl => exact h
  | step _ ih => exact ih.tighter

theorem mem_row_of_sign? {op : BinaryOp} {t : Token} {k : Nat} (h : op.sign? = some (t, k)) :
    k < 10 ∧ ∃ row, rows[k]? = some row ∧ (t, op) ∈ row := by
  cases op <;> cases h <;> exact ⟨by decide, _, rfl, by decide⟩

theorem mem_binaryCalls_of_sign? {op : BinaryOp} (h : op.sign? = none) :
    (op.tag, op) ∈ binaryCalls := by
  cases op <;> first | decide | cases h

theorem mem_unaryCalls_of_sign? {op : UnaryOp} (h : op.sign? = none) :
    (op.tag, op) ∈ unaryCalls := by
  cases op <;> first | decide | cases h

end Grammar

namespace Expr

/-- What is printed spells the expression.  In a place where it may need parentheses it costs at
most one unit more than two for each node of the longest path. -/
theorem exists_derives_tokens {e : Expr} (he : e.IsPrintable) (limit : Nat) :
    ∃ c, Derives (.level limit) (e.tokens limit) e c ∧ c ≤ 2 * e.toFormula.height + 1 ∧
      (10 ≤ limit → c ≤ 2 * e.toFormula.height) := by
  induction he generalizing limit with
  | @number n _ =>
    have hnumber : Derives (.level 0) [.number n] (number n) 1 := .operand (.number n)
    refine ⟨1, hnumber.loosen (Nat.zero_le limit), ?_⟩
    simp [toFormula, Formula.height]
  | @var id _ =>
    have hvar : Derives (.level 0) [.reference id] (var id) 1 := .operand (.reference id)
    refine ⟨1, hvar.loosen (Nat.zero_le limit), ?_⟩
    simp [toFormula, Formula.height]
  | @binary op l r _ _ ihl ihr =>
    have hheight : (binary op l r).toFormula.height =
        max l.toFormula.height r.toFormula.height + 1 := rfl
    rw [hheight]
    cases hsign : op.sign? with
    | some p =>
      obtain ⟨t, row⟩ := p
      obtain ⟨hlt, ops, hrow, hop⟩ := Grammar.mem_row_of_sign? hsign
      obtain ⟨c, hl, hc, -⟩ := ihl (row + 1)
      obtain ⟨d, hr, hd, -⟩ := ihr row
      have hphrase := Derives.between hrow hop hl hr
      simp only [tokens, hsign]
      by_cases hlimit : row < limit
      · rw [if_pos hlimit]
        exact ⟨max c d, hphrase.loosen hlimit, by omega, by omega⟩
      · rw [if_neg hlimit]
        -- Parentheses make an operand of the phrase: one unit for the pair, one for the operand.
        have henclosed := Derives.operand (.parenthesised (hphrase.loosen (Nat.succ_le_of_lt hlt)))
        exact ⟨_, henclosed.loosen (Nat.zero_le limit), by omega, by omega⟩
    | none =>
      obtain ⟨c, hl, -, hc⟩ := ihl 10
      obtain ⟨d, hr, -, hd⟩ := ihr 10
      have hcall := Derives.operand (.binaryCall (Grammar.mem_binaryCalls_of_sign? hsign) hl hr)
      simp only [tokens, hsign]
      exact ⟨_, hcall.loosen (Nat.zero_le limit), by omega, by omega⟩
  | @unary op x _ ih =>
    have hheight : (unary op x).toFormula.height = x.toFormula.height + 1 := rfl
    rw [hheight]
    cases hsign : op.sign? with
    | some t =>
      obtain ⟨c, hx, hc, -⟩ := ih 0
      simp only [tokens, hsign]
      have hsigned : Derives (.level 0) (t :: x.tokens 0) (unary op x) (c + 1) := by
        cases op <;> cases hsign
        · exact .bang hx
        · exact .tilde hx
      exact ⟨_, hsigned.loosen (Nat.zero_le limit), by omega, by omega⟩
    | none =>
      obtain ⟨c, hx, -, hc⟩ := ih 10
      have hcall := Derives.operand (.unaryCall (Grammar.mem_unaryCalls_of_sign? hsign) hx)
      simp only [tokens, hsign]
      exact ⟨_, hcall.loosen (Nat.zero_le limit), by omega, by omega⟩

theorem hasSpelling_of_binarySign {op : BinaryOp} {t : Token} {k : Nat}
    (h : op.sign? = some (t, k)) : t.HasSpelling := by
  cases op <;> cases h <;> trivial

theorem hasSpelling_of_unarySign {op : UnaryOp} {t : Token} (h : op.sign? = some t) :
    t.HasSpelling := by
  cases op <;> cases h <;> trivial

theorem forall_hasSpelling_enclosed {ts : List Token} (h : ∀ t ∈ ts, t.HasSpelling) :
    ∀ t ∈ Token.leftParen :: ts ++ [.rightParen], t.HasSpelling :=
  List.forall_mem_cons.mpr
    ⟨trivial, List.forall_mem_append.mpr ⟨h, List.forall_mem_singleton.mpr trivial⟩⟩

theorem hasSpelling_of_mem_tokens {e : Expr} (he : e.IsPrintable) (limit : Nat) :
    ∀ t ∈ e.tokens limit, t.HasSpelling := by
  induction he generalizing limit with
  | number h => exact List.forall_mem_singleton.mpr h
  | var h => exact List.forall_mem_singleton.mpr h
  | @binary op l r _ _ ihl ihr =>
    cases hsign : op.sign? with
    | some p =>
      obtain ⟨t, row⟩ := p
      have hts : ∀ u ∈ l.tokens (row + 1) ++ t :: r.tokens row, u.HasSpelling :=
        List.forall_mem_append.mpr ⟨ihl (row + 1),
          List.forall_mem_cons.mpr ⟨hasSpelling_of_binarySign hsign, ihr row⟩⟩
      simp only [tokens, hsign]
      split
      · exact hts
      · exact forall_hasSpelling_enclosed hts
    | none =>
      have hts : ∀ u ∈ l.tokens 10 ++ .comma :: r.tokens 10, u.HasSpelling :=
        List.forall_mem_append.mpr ⟨ihl 10, List.forall_mem_cons.mpr ⟨trivial, ihr 10⟩⟩
      have hname := Token.hasSpelling_binaryCall (Grammar.mem_binaryCalls_of_sign? hsign)
      simp only [tokens, hsign]
      exact List.forall_mem_cons.mpr ⟨hname, forall_hasSpelling_enclosed hts⟩
  | @unary op x _ ih =>
    cases hsign : op.sign? with
    | some t =>
      simp only [tokens, hsign]
      exact List.forall_mem_cons.mpr ⟨hasSpelling_of_unarySign hsign, ih 0⟩
    | none =>
      have hname := Token.hasSpelling_unaryCall (Grammar.mem_unaryCalls_of_sign? hsign)
      simp only [tokens, hsign]
      exact List.forall_mem_cons.mpr ⟨hname, forall_hasSpelling_enclosed (ih 10)⟩

/-- Every tree of operators can be written as text and read again: the text that is printed, as well
as any text that spells the same tokens with blanks between them.  A path of 128 nodes, which is 127
steps down, may use up the whole nesting budget. -/
theorem ofText?_print {e : Expr} (he : e.IsPrintable) (hheight : e.toFormula.height ≤ 128) :
    ofText? e.print = .ok e ∧
      ∀ text : String, Spells (e.tokens 10) text.toList → ofText? text = .ok e := by
  obtain ⟨c, hd, -, hc⟩ := exists_derives_tokens he 10
  have hbudget : c ≤ 256 := by
    have hcost := hc le_rfl
    omega
  have hspells {text : String} (h : Spells (e.tokens 10) text.toList) : ofText? text = .ok e :=
    ofText?_of_derives hd hbudget (hasSpelling_of_mem_tokens he 10) h
  refine ⟨hspells ?_, fun text => hspells⟩
  rw [print, String.toList_ofList]
  exact spells_flatMap_spelling (e.tokens 10)

/-- The second tree uses up the nesting budget. -/
theorem ofText?_print_product :
    let e := binary .mul (binary .sub (number 7) (var "L0"))
      (unary .not (binary .min (var "12") (unary .complement (number 3))))
    let deep := (unary .abs)^[127] (number 0)
    ((e.IsPrintable ∧ e.toFormula.height ≤ 128) ∧
        ofText? "(7-$L0$)*!min($12$,~3)" = .ok e) ∧
      (deep.IsPrintable ∧ deep.toFormula.height = 128) ∧ ofText? deep.print = .ok deep := by
  intro e deep
  have hlocal : (var "L0").IsPrintable := .var (.lettered rfl rfl)
  have hglobal : (var "12").IsPrintable := .var (.numeral rfl (by decide))
  have he : e.IsPrintable :=
    .binary (.binary (.number (by decide)) hlocal)
      (.unary (.binary hglobal (.unary (.number (by decide)))))
  have hheight : e.toFormula.height ≤ 128 := by decide
  have hprint : e.print = "(7-$L0$)*!min($12$,~3)" := by decide
  have hdeep : deep.IsPrintable :=
    Function.Iterate.rec IsPrintable (.number (by decide)) (fun _ => .unary) 127
  have hdepth : deep.toFormula.height = 128 := by decide +kernel
  exact ⟨⟨⟨he, hheight⟩, hprint ▸ (ofText?_print he hheight).1⟩, ⟨hdeep, hdepth⟩,
    (ofText?_print hdeep hdepth.le).1⟩

end Expr

end SceneFormula
