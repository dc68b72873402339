import SceneFormula.Formula.Simplify
import SceneFormula.Program.Compile
import SceneFormula.Proofs.Lexing.Tokens
import SceneFormula.Proofs.Nodes
import SceneFormula.Proofs.Printing

/-!
# The passes over a formula

Simplification and compilation call themselves on the operands of a node.  At a text they call
themselves on the formula that the text spells, which is no part of the formula they are at.  What
a text spells holds no text again, so the calls end, and every text is converted once.
-/

namespace SceneFormula

/-! ### What texts spell -/

theorem Lexer.Lexed.hasSpelling {pos : Nat} {cs : List Char} {ls : List Lexeme}
    (h : Lexed pos cs ls) : ∀ t ∈ ls.map Lexeme.token, t.HasSpelling := by
  induction h with
  | nil => simp
  | blank _ _ ih => exact ih
  | token ht _ _ ih =>
    rw [List.map_cons]
    exact List.forall_mem_cons.mpr ⟨ht.hasSpelling, ih⟩

/-- A node that a text can spell. -/
inductive Formula.IsSpelled : Formula → Prop
  | number {n : Int64} (h : 0 ≤ n) : IsSpelled (number n)
  | var {id : String} (h : Reference.IsId id.toList) : IsSpelled (var id)
  | binary (op : BinaryOp) (l r : Formula) : IsSpelled (binary op (some l) (some r))
  | unary (op : UnaryOp) (x : Formula) : IsSpelled (unary op (some x))

namespace Expr

theorem isPrintable_ofText (source : String) : (ofText source).IsPrintable := by
  rw [ofText]
  cases h : ofText? source with
  | error fault => exact .number (by decide)
  | ok e =>
    obtain ⟨lexemes, c, hlex, -, hd⟩ := exists_derives_of_ofText? h
    exact hd.isPrintable (Lexer.lexed_of_lexemes hlex).hasSpelling

theorem IsPrintable.isSpelled {e : Expr} (he : e.IsPrintable) :
    ∀ g ∈ e.toFormula.preorder, g.IsSpelled := by
  induction he with
  | number h => exact List.forall_mem_singleton.mpr (.number h)
  | var h => exact List.forall_mem_singleton.mpr (.var h)
  | binary _ _ ihl ihr =>
    rw [Formula.forall_mem_preorder_iff, operands_toFormula_binary]
    exact ⟨.binary _ _ _, by simpa using ⟨ihl, ihr⟩⟩
  | unary _ ih =>
    rw [Formula.forall_mem_preorder_iff, operands_toFormula_unary]
    exact ⟨.unary _ _, by simpa using ih⟩

end Expr

namespace Formula

/-! ### Texts in a formula -/

def text? : Formula → Option String
  | text source => some source
  | _ => none

/-- The texts of a formula, one for each leaf in text form, from left to right. -/
def texts (f : Formula) : List String := f.preorder.filterMap text?

def textsOperand (x : Option Formula) : List String := x.toList.flatMap texts

theorem texts_binary (op : BinaryOp) (l r : Option Formula) :
    (binary op l r).texts = textsOperand l ++ textsOperand r := by
  rw [texts, preorder, List.filterMap_cons_none rfl, List.filterMap_append, preorderOperand_eq,
    preorderOperand_eq, List.filterMap_flatMap, List.filterMap_flatMap]
  rfl

theorem texts_unary (op : UnaryOp) (x : Option Formula) :
    (unary op x).texts = textsOperand x := by
  rw [texts, preorder, List.filterMap_cons_none rfl, preorderOperand_eq, List.filterMap_flatMap]
  rfl

@[simp] theorem textsOperand_some (f : Formula) : textsOperand (some f) = f.texts := by
  simp [textsOperand]

theorem IsSpelled.text?_eq_none {g : Formula} (h : g.IsSpelled) : g.text? = none := by
  cases h <;> rfl

theorem texts_ofText (source : String) : (Expr.ofText source).toFormula.texts = [] := by
  rw [texts, List.filterMap_eq_nil_iff]
  intro g hg
  exact ((Expr.isPrintable_ofText source).isSpelled g hg).text?_eq_none

/-! ### Calls -/

/-- What a pass that is called on `x` calls itself on. -/
def calls : Option Formula → List (Option Formula)
  | some (text source) => [some (Expr.ofText source).toFormula]
  | some (binary _ l r) => [l, r]
  | some (unary _ x) => [x]
  | _ => []

def potential (x : Option Formula) : ℕ ×ₗ ℕ := toLex ((textsOperand x).length, sizeOperand x)

theorem potential_lt {x y : Option Formula}
    (htexts : (textsOperand y).length ≤ (textsOperand x).length)
    (hsize : sizeOperand y < sizeOperand x) : potential y < potential x := by
  rw [potential, potential, Prod.Lex.toLex_lt_toLex]
  rcases htexts.lt_or_eq with h | h
  · exact .inl h
  · exact .inr ⟨h, hsize⟩

/-- A call leaves a text behind, or it goes down in the formula. -/
theorem potential_lt_of_mem_calls {x y : Option Formula} (h : y ∈ calls x) :
    potential y < potential x := by
  cases x with
  | none => cases h
  | some f =>
    cases f with
    | number | var | property | truth => cases h
    | text source =>
      obtain rfl : y = some (Expr.ofText source).toFormula := List.mem_singleton.mp h
      -- The text itself is left behind, and what it spells holds none.
      apply Prod.Lex.left
      rw [textsOperand_some, texts_ofText]
      exact Nat.zero_lt_one
    | binary op l r =>
      have hy : y = l ∨ y = r := by simpa [calls] using h
      apply potential_lt
      · rw [textsOperand_some, texts_binary, List.length_append]
        rcases hy with rfl | rfl <;> omega
      · rw [sizeOperand, size]
        rcases hy with rfl | rfl <;> omega
    | unary op x =>
      obtain rfl : y = x := List.mem_singleton.mp h
      apply potential_lt
      · rw [textsOperand_some, texts_unary]
      · rw [sizeOperand, size]
        omega

theorem wellFounded_calls : WellFounded fun y x => y ∈ calls x :=
  (InvImage.wf potential wellFounded_lt).mono fun _ _ h => potential_lt_of_mem_calls h

/-- What holds of an absent operand and of the leaves, and goes over from the calls of a pass to the
pass itself, holds wherever the pass is called. -/
@[elab_as_elim]
theorem induction_calls {P : Option Formula → Prop} (absent : P none)
    (number : ∀ n, P (some (number n))) (var : ∀ id, P (some (var id)))
    (property : ∀ target p, P (some (property target p))) (truth : ∀ b, P (some (truth b)))
    (text : ∀ source, P (some (Expr.ofText source).toFormula) → P (some (text source)))
    (binary : ∀ op l r, P l → P r → P (some (binary op l r)))
    (unary : ∀ op x, P x → P (some (unary op x))) (x : Option Formula) : P x := by
  induction x using wellFounded_calls.induction with
  | _ x ih =>
    cases x with
    | none => exact absent
    | some f =>
      cases f with
      | number n => exact number n
      | var id => exact var id
      | property target p => exact property target p
      | truth b => exact truth b
      | text source => exact text source (ih _ List.mem_cons_self)
      | binary op l r => exact binary op l r (ih _ (by simp [calls])) (ih _ (by simp [calls]))
      | unary op x => exact unary op x (ih _ List.mem_cons_self)

end Formula

/-! ### Runs -/

/-- A pass, by what it does at a leaf and at an operator after the calls on its operands. -/
structure Pass (α : Type) where
  number : Int64 → α
  var : String → α
  property : String → ActorProperty → α
  truth : Bool → α
  binary : BinaryOp → α → α → α
  unary : UnaryOp → α → α

namespace Pass

open Formula (calls texts textsOperand texts_ofText texts_binary texts_unary textsOperand_some)

variable {α : Type} {p : Pass α}

/-- `p.Runs x a converted`: the pass that is called on `x` comes back with `a`, and it converts the
texts `converted` on the way, in this order.  An absent operand counts as zero. -/
inductive Runs (p : Pass α) : Option Formula → α → List String → Prop
  | absent : p.Runs none (p.number 0) []
  | number (n : Int64) : p.Runs (some (.number n)) (p.number n) []
  | var (id : String) : p.Runs (some (.var id)) (p.var id) []
  | property (target : String) (q : ActorProperty) :
      p.Runs (some (.property target q)) (p.property target q) []
  | truth (b : Bool) : p.Runs (some (.truth b)) (p.truth b) []
  | text {source a converted} (h : p.Runs (some (Expr.ofText source).toFormula) a converted) :
      p.Runs (some (.text source)) a (source :: converted)
  | binary {op l r a b ts us} (hl : p.Runs l a ts) (hr : p.Runs r b us) :
      p.Runs (some (.binary op l r)) (p.binary op a b) (ts ++ us)
  | unary {op x a ts} (hx : p.Runs x a ts) : p.Runs (some (.unary op x)) (p.unary op a) ts

theorem Runs.unique {x : Option Formula} {a b : α} {ts us : List String} (h : p.Runs x a ts)
    (h' : p.Runs x b us) : a = b ∧ ts = us := by
  induction h generalizing b us with
  | absent | number | var | property | truth =>
    cases h'
    exact ⟨rfl, rfl⟩
  | text _ ih =>
    cases h' with
    | text h' =>
      obtain ⟨rfl, rfl⟩ := ih h'
      exact ⟨rfl, rfl⟩
  | binary _ _ ihl ihr =>
    cases h' with
    | binary hl hr =>
      obtain ⟨rfl, rfl⟩ := ihl hl
      obtain ⟨rfl, rfl⟩ := ihr hr
      exact ⟨rfl, rfl⟩
  | unary _ ih =>
    cases h' with
    | unary h' =>
      obtain ⟨rfl, rfl⟩ := ih h'
      exact ⟨rfl, rfl⟩

/-- What the pass comes back with from a complete expression. -/
def value (p : Pass α) : Expr → α
  | .number n => p.number n
  | .var id => p.var id
  | .property target q => p.property target q
  | .truth b => p.truth b
  | .binary op l r => p.binary op (p.value l) (p.value r)
  | .unary op x => p.unary op (p.value x)

/-- Every call of a pass comes back. -/
theorem runs (p : Pass α) (x : Option Formula) :
    p.Runs x (p.value (Formula.completeOperand x)) (textsOperand x) := by
  induction x using Formula.induction_calls with
  | absent => exact .absent
  | number n => exact .number n
  | var id => exact .var id
  | property target q => exact .property target q
  | truth b => exact .truth b
  | text source ih =>
    rw [Formula.completeOperand, Expr.complete_toFormula, textsOperand_some, texts_ofText] at ih
    exact .text ih
  | binary op l r ihl ihr =>
    rw [textsOperand_some, texts_binary]
    exact .binary ihl ihr
  | unary op x ih =>
    rw [textsOperand_some, texts_unary]
    exact .unary ih

theorem runs_iff {f : Formula} {a : α} {ts : List String} :
    p.Runs (some f) a ts ↔ a = p.value f.complete ∧ ts = f.texts := by
  have hruns := p.runs (some f)
  rw [Formula.completeOperand, textsOperand_some] at hruns
  constructor
  · exact fun h => h.unique hruns
  · rintro ⟨rfl, rfl⟩
    exact hruns

/-! ### Simplification -/

def foldedBinary (op : BinaryOp) (l r : Formula) : Formula :=
  (l.constant?.bind fun a => r.constant?.bind (op.result? a)).elim
    (.binary op (some l) (some r)) .number

def foldedUnary (op : UnaryOp) (x : Formula) : Formula :=
  (x.constant?.bind op.result?).elim (.unary op (some x)) .number

def simplifying : Pass Formula where
  number := .number
  var := .var
  property := .property
  truth := .truth
  binary := foldedBinary
  unary := foldedUnary

theorem foldedBinary_toFormula (op : BinaryOp) (l r : Expr) :
    foldedBinary op l.toFormula r.toFormula = (Expr.foldBinary op l r).toFormula := by
  rw [foldedBinary, Expr.constant?_toFormula, Expr.constant?_toFormula, Expr.foldBinary]
  cases l.constant? with
  | none => rfl
  | some a =>
    cases r.constant? with
    | none => rfl
    | some b =>
      dsimp only [Option.bind_some]
      cases op.result? a b <;> rfl

theorem foldedUnary_toFormula (op : UnaryOp) (x : Expr) :
    foldedUnary op x.toFormula = (Expr.foldUnary op x).toFormula := by
  rw [foldedUnary, Expr.constant?_toFormula, Expr.foldUnary]
  cases x.constant? with
  | none => rfl
  | some a =>
    dsimp only [Option.bind_some]
    cases op.result? a <;> rfl

theorem value_simplifying (e : Expr) : simplifying.value e = e.fold.toFormula := by
  induction e with
  | binary op l r ihl ihr =>
    rw [value, ihl, ihr]
    exact foldedBinary_toFormula op l.fold r.fold
  | unary op x ih =>
    rw [value, ih]
    exact foldedUnary_toFormula op x.fold
  | _ => rfl

/-! ### Compilation -/

/-- Where a compilation stands: the number of the next local, and the program so far. -/
structure Output where
  next : Nat
  code : List Instruction
  fetches : List Fetch

namespace Output

def start : Output := ⟨0, [], []⟩

def emit (code : List Instruction) (out : Output) : Output :=
  { out with code := out.code ++ code }

/-- Takes the next local for a record of the actor, and emits the code that reads the property. -/
def read (stem target : String) (q : ActorProperty) (out : Output) : Output where
  next := out.next + 1
  code := out.code ++ q.code (localName stem out.next)
  fetches := out.fetches ++ [⟨localName stem out.next, ⟨q.recordKind, target⟩⟩]

def append (program : Program) (out : Output) : Output where
  next := out.next + program.fetches.length
  code := out.code ++ program.code
  fetches := out.fetches ++ program.fetches

end Output

def compiling (stem : String) : Pass (Output → Output) where
  number n := .emit [.number n]
  var id := .emit [.var id]
  property := .read stem
  truth b := .emit [.number b.toInt64]
  binary op l r := .emit [.binary op] ∘ r ∘ l
  unary op x := .emit [.unary op] ∘ x

theorem value_compiling (stem : String) (e : Expr) (out : Output) :
    (compiling stem).value e out = out.append (e.compileFrom stem out.next) := by
  induction e generalizing out with
  | number | truth | var =>
    simp [value, compiling, Output.emit, Output.append, Expr.compileFrom]
  | property target q => rfl
  | binary op l r ihl ihr =>
    calc (compiling stem).value (.binary op l r) out
        = ((compiling stem).value r ((compiling stem).value l out)).emit [.binary op] := rfl
      _ = out.append ((Expr.binary op l r).compileFrom stem out.next) := by
        simp [ihl, ihr, Output.emit, Output.append, Expr.compileFrom, Nat.add_assoc]
  | unary op x ih =>
    calc (compiling stem).value (.unary op x) out
        = ((compiling stem).value x out).emit [.unary op] := rfl
      _ = out.append ((Expr.unary op x).compileFrom stem out.next) := by
        simp [ih, Output.emit, Output.append, Expr.compileFrom]

end Pass

namespace Formula

/-- A text spells numbers that are not negative, variables with ids that stand for themselves, and
operators with all their operands, and nothing else.  So the calls of a pass go down along a
well-founded relation: simplification and compilation come back from every formula, with one result
each, and they convert every text of the formula once. -/
theorem passes_end :
    (∀ source, ∀ g ∈ (Expr.ofText source).toFormula.preorder, g.IsSpelled) ∧
      WellFounded (fun y x => y ∈ calls x) ∧
      ∀ f : Formula,
        (∀ g converted,
          Pass.simplifying.Runs (some f) g converted ↔ g = f.simplify ∧ converted = f.texts) ∧
        ∀ stem, ∃ compiled : Pass.Output → Pass.Output,
          (∀ c converted, (Pass.compiling stem).Runs (some f) c converted ↔
            c = compiled ∧ converted = f.texts) ∧
          compiled .start = ⟨(f.compile stem).fetches.length, (f.compile stem).code,
            (f.compile stem).fetches⟩ := by
  refine ⟨fun source => (Expr.isPrintable_ofText source).isSpelled, wellFounded_calls, fun f => ?_⟩
  constructor
  · intro g converted
    rw [Pass.runs_iff, Pass.value_simplifying]
    rfl
  · intro stem
    refine ⟨_, fun c converted => Pass.runs_iff, ?_⟩
    rw [Pass.value_compiling, compile]
    simp [Pass.Output.append, Pass.Output.start]

end Formula

end SceneFormula
