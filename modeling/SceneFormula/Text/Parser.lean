import SceneFormula.Expr
import SceneFormula.Text.Lexer

/-!
# Parsing

Expressions have ten levels of operators between operands, all left associative; below them stand
the operators before an operand, and then numbers, variables, calls and parentheses.  The operators
between operands are read by climbing: one loop compares the level of the next operator with the
level that it was entered with.

An expression may nest to a bounded depth.  Each operand uses up one unit of the budget, and each
pair of parentheses or list of arguments one more; the budget bounds the recursion.
-/

namespace SceneFormula

/-- The operator that a token stands for between two operands, with its level.  Level 1 binds
tightest. -/
def Token.binary? : Token → Option (Nat × BinaryOp)
  | .star => some (1, .mul)
  | .slash => some (1, .div)
  | .percent => some (1, .rem)
  | .plus => some (2, .add)
  | .minus => some (2, .sub)
  | .shiftLeft => some (3, .shiftLeft)
  | .shiftRight => some (3, .shiftRight)
  | .less => some (4, .lt)
  | .lessEqual => some (4, .le)
  | .greater => some (4, .gt)
  | .greaterEqual => some (4, .ge)
  | .equal => some (5, .eq)
  | .notEqual => some (5, .ne)
  | .ampersand => some (6, .bitAnd)
  | .caret => some (7, .bitXor)
  | .pipe => some (8, .bitOr)
  | .andAnd => some (9, .and)
  | .orOr => some (10, .or)
  | _ => none

/-- The expression that an operator before its operand makes of it.  A sign is a difference from
zero. -/
def Token.unary? : Token → Option (Expr → Expr)
  | .minus => some (.binary .sub (.number 0))
  | .bang => some (.unary .not)
  | .tilde => some (.unary .complement)
  | _ => none

/-- The operators that are written as calls. -/
inductive Callee where
  | unary (op : UnaryOp)
  | binary (op : BinaryOp)

namespace Callee

def ofName? (name : String) : Option Callee :=
  match [BinaryOp.min, .max, .angle].find? (·.tag == name) with
  | some op => some (binary op)
  | none => ([UnaryOp.abs, .random, .sqrt].find? (·.tag == name)).map unary

def arity : Callee → Nat
  | unary _ => 1
  | binary _ => 2

def build? : Callee → List Expr → Option Expr
  | unary op, [a] => some (.unary op a)
  | binary op, [a, b] => some (.binary op a b)
  | _, _ => none

end Callee

namespace Parser

/-- A fault, and the tokens from the one at fault on. -/
structure Failure where
  fault : SyntaxFault
  rest : List Token

/-- A reader takes what it reads off the front of the tokens. -/
abbrev Reader (α : Type) := List Token → Except Failure (α × List Token)

def expect (wanted : Token) : List Token → Except Failure (List Token)
  | [] => .error ⟨.expected (some wanted) none, []⟩
  | t :: ts =>
    if t = wanted then .ok ts else .error ⟨.expected (some wanted) (some t), t :: ts⟩

/-- Extends `left` by the operators below level `limit`, with operands read by `operand`, for as
long as they follow one another.  What an operator takes on its right reaches up to the next one
that is not below its own level.  The first list is at least as long as the tokens: each turn spends
one of its cells. -/
def climb (operand : Reader Expr) : List Token → Nat → Expr → Reader Expr
  | _ :: bound, limit, left, t :: ts =>
    match t.binary? with
    | none => .ok (left, t :: ts)
    | some (k, op) =>
      if limit ≤ k then .ok (left, t :: ts)
      else
        match operand ts with
        | .error e => .error e
        | .ok (first, rest) =>
          match climb operand bound k first rest with
          | .error e => .error e
          | .ok (right, rest) => climb operand bound limit (.binary op left right) rest
  | _, _, left, ts => .ok (left, ts)

/-- Reads operands joined by operators of every level. -/
def expression (operand : Reader Expr) : Reader Expr := fun ts =>
  match operand ts with
  | .error e => .error e
  | .ok (left, rest) => climb operand rest 11 left rest

/-- Reads arguments up to and with the closing parenthesis; there is at least one.  The first list
is at least as long as the tokens. -/
def moreArguments (argument : Reader Expr) (bound : List Token) : Reader (List Expr) := fun ts =>
  match argument ts with
  | .error e => .error e
  | .ok (first, rest) =>
    match bound, rest with
    | _ :: bound, .comma :: rest =>
      match moreArguments argument bound rest with
      | .error e => .error e
      | .ok (others, rest) => .ok (first :: others, rest)
    | _, rest =>
      match expect .rightParen rest with
      | .error e => .error e
      | .ok rest => .ok ([first], rest)

/-- Reads what follows the opening parenthesis of a call. -/
def arguments (argument : Reader Expr) : Reader (List Expr)
  | .rightParen :: ts => .ok ([], ts)
  | ts => moreArguments argument ts ts

/-- Reads what follows an opening parenthesis. -/
def parenthesised (operand : Reader Expr) : Reader Expr := fun ts =>
  match expression operand ts with
  | .error e => .error e
  | .ok (e, rest) =>
    match expect .rightParen rest with
    | .error e => .error e
    | .ok rest => .ok (e, rest)

/-- Reads what stands in parentheses, by a reader that is missing once the budget is used up. -/
def nested {α : Type} (inner : Option (Reader α)) : Reader α := fun ts =>
  match inner with
  | none => .error ⟨.nestedTooDeeply, ts⟩
  | some read => read ts

/-- Reads a call of `name`.  `start` is where the name stands. -/
def call (inner : Option (Reader (List Expr))) (name : String) (start : List Token) :
    Reader Expr := fun ts =>
  match Callee.ofName? name with
  | none => .error ⟨.unknownFunction name, start⟩
  | some callee =>
    match expect .leftParen ts with
    | .error e => .error e
    | .ok rest =>
      match nested inner rest with
      | .error e => .error e
      | .ok (args, rest) =>
        match callee.build? args with
        | none => .error ⟨.argumentCount name callee.arity args.length, start⟩
        | some e => .ok (e, rest)

/-- Reads a number, a variable, a call or parentheses. -/
def primary (inner : Option (Reader Expr)) : Reader Expr
  | .number n :: ts => .ok (.number n, ts)
  | .truth b :: ts => .ok (.number b.toInt64, ts)
  | .reference id :: ts => .ok (.var id, ts)
  | .ident name :: ts =>
    call (inner.map fun operand => arguments (expression operand)) name (.ident name :: ts) ts
  | .leftParen :: ts => nested (inner.map parenthesised) ts
  | ts => .error ⟨.unexpected ts.head?, ts⟩

/-- Reads an operand with the operators before it. -/
def operand : Nat → Reader Expr
  | 0 => fun ts => .error ⟨.nestedTooDeeply, ts⟩
  | budget + 1 => fun ts =>
    match ts with
    | [] => primary none []
    | t :: rest =>
      match t.unary? with
      | some build =>
        match operand budget rest with
        | .error e => .error e
        | .ok (e, rest) => .ok (build e, rest)
      | none =>
        match budget with
        | 0 => primary none (t :: rest)
        | inner + 1 => primary (some (operand inner)) (t :: rest)

/-- The depth to which expressions may nest. -/
def budget : Nat := 256

/-- Reads all the tokens as one expression. -/
def parse (ts : List Token) : Except Failure Expr :=
  match expression (operand budget) ts with
  | .error e => .error e
  | .ok (e, []) => .ok e
  | .ok (_, t :: rest) => .error ⟨.expected none (some t), t :: rest⟩

end Parser

namespace Expr

/-- The expression that a text spells. -/
def ofText? (text : String) : Except SyntaxError Expr :=
  match Lexeme.ofText? text with
  | .error e => .error e
  | .ok lexemes =>
    match Parser.parse (lexemes.map Lexeme.token) with
    | .ok e => .ok e
    | .error failure =>
      match lexemes.drop (lexemes.length - failure.rest.length) with
      | lexeme :: _ => .error ⟨lexeme.start, failure.fault⟩
      | [] => .error ⟨text.utf8ByteSize, failure.fault⟩

/-- The expression that a text spells; a text that spells none counts as zero. -/
def ofText (text : String) : Expr :=
  match ofText? text with
  | .ok e => e
  | .error _ => .number 0

end Expr

end SceneFormula
