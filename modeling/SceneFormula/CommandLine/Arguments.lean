/-!
# Arguments

The words of a command are flags, options with a value, and operands.  A word that begins with a
hyphen is never taken as a value or an operand, unless it is a lone hyphen or follows a double
hyphen.  A flag or an option may be given once.
-/

namespace SceneFormula.CommandLine

inductive Word where
  /-- The double hyphen, after which every word is an operand. -/
  | escape
  | long (name : String) (value : Option String)
  | short (letters : List Char)
  | plain (text : String)

def Word.ofString (word : String) : Word :=
  match word.toList with
  | ['-', '-'] => .escape
  | '-' :: '-' :: cs =>
    let name := String.ofList (cs.takeWhile (· ≠ '='))
    match cs.dropWhile (· ≠ '=') with
    | [] => .long name none
    | _ :: value => .long name (some (String.ofList value))
  | ['-'] => .plain word
  | '-' :: letters => .short letters
  | _ => .plain word

/-- The flags and the options that a command knows. -/
structure Form where
  flags : List String
  options : List String

/-- The words of a command, sorted out. -/
structure Arguments where
  flags : List String := []
  options : List (String × String) := []
  operands : List String := []

namespace Arguments

def addFlag (name : String) (args : Arguments) : Option Arguments :=
  if name ∈ args.flags then none else some { args with flags := name :: args.flags }

def addOption (name value : String) (args : Arguments) : Option Arguments :=
  if name ∈ args.options.map Prod.fst then none
  else some { args with options := (name, value) :: args.options }

def addOperands (texts : List String) (args : Arguments) : Arguments :=
  { args with operands := args.operands ++ texts }

/-- Adds the flags that are written as letters after one hyphen. -/
def addLetters : List Char → Arguments → Option Arguments
  | [], args => some args
  | c :: cs, args => if c = 'v' then (args.addFlag "verbose").bind (addLetters cs) else none

def value? (name : String) (args : Arguments) : Option String :=
  (args.options.find? (·.1 == name)).map Prod.snd

/-- Adds the words of a command; none if one of them is out of place. -/
def addWords (form : Form) : List String → Arguments → Option Arguments
  | [], args => some args
  | word :: words, args =>
    match Word.ofString word with
    | .escape => some (args.addOperands words)
    | .plain text => addWords form words (args.addOperands [text])
    | .short letters => (addLetters letters args).bind (addWords form words)
    | .long name none =>
      if name ∈ form.flags then (args.addFlag name).bind (addWords form words)
      else if name ∈ form.options then
        match words with
        | [] => none
        | value :: words =>
          match Word.ofString value with
          | .plain text => (args.addOption name text).bind (addWords form words)
          | _ => none
      else none
    | .long name (some value) =>
      if name ∈ form.options then (args.addOption name value).bind (addWords form words)
      else none

def ofWords? (form : Form) (words : List String) : Option Arguments := addWords form words {}

end Arguments

end SceneFormula.CommandLine
