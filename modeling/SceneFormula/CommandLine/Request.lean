import SceneFormula.CommandLine.Arguments
import SceneFormula.Program.Compile

/-!
# Requests

What the words of the command line ask for.
-/

namespace SceneFormula.CommandLine

/-- Where a formula comes from: a file that stores it, or an expression text. -/
inductive Input where
  | file (path : String)
  | text (source : String)

inductive Command where
  | parse (source : String) (strict : Bool)
  | simplify (input : Input)
  | listVariables (input : Input)
  | compile (input : Input) (stem : String) (simplifying grouping : Bool)

inductive Request where
  | version
  | run (command : Command) (pretty : Bool)

namespace Command

def input? : Command → Option Input
  | parse _ _ => none
  | simplify input => some input
  | listVariables input => some input
  | compile input _ _ _ => some input

/-- The flags that every command knows. -/
def globalFlags : List String := ["pretty", "verbose"]

def inputOptions : List String := ["in", "expr"]

/-- The one input that the arguments name. -/
def readInput (args : Arguments) : Option Input :=
  match args.value? "in", args.value? "expr" with
  | some path, none => if path.isEmpty then none else some (.file path)
  | none, some source => some (.text source)
  | _, _ => none

def onInput (args : Arguments) (make : Input → Command) : Option Command :=
  if args.operands.isEmpty then (readInput args).map make else none

/-- The flags and options of the command `name`, and what its arguments ask for. -/
def ofName? (name : String) : Option (Form × (Arguments → Option Command)) :=
  match name with
  | "parse" =>
    some (⟨"strict" :: globalFlags, []⟩, fun args =>
      match args.operands with
      | [source] => some (parse source (args.flags.contains "strict"))
      | _ => none)
  | "optimise" => some (⟨globalFlags, inputOptions⟩, fun args => onInput args simplify)
  | "vars" => some (⟨globalFlags, inputOptions⟩, fun args => onInput args listVariables)
  | "precompile" =>
    some (⟨"sort-fetches" :: "no-optimise" :: globalFlags, "local-prefix" :: inputOptions⟩,
      fun args => onInput args fun input =>
        compile input ((args.value? "local-prefix").getD Formula.defaultStem)
          (!args.flags.contains "no-optimise") (args.flags.contains "sort-fetches"))
  | _ => none

end Command

namespace Request

/-- The request of the command `name` with the words after it.  `outer` holds the flags before the
name. -/
def ofCommand? (name : String) (words : List String) (outer : Arguments) : Option Request := do
  let (form, read) ← Command.ofName? name
  let args ← Arguments.ofWords? form words
  let command ← read args
  return run command (outer.flags.contains "pretty" || args.flags.contains "pretty")

/-- Reads letters after one hyphen before the name of a command.  The version is asked for at the
first letter that does so, whatever comes after it. -/
def ofLetters? : List Char → Arguments → Option (Arguments ⊕ Request)
  | [], outer => some (.inl outer)
  | c :: cs, outer =>
    if c = 'V' then some (.inr version)
    else if c = 'v' then (outer.addFlag "verbose").bind (ofLetters? cs)
    else none

/-- The request of all the words; none if they are used wrongly.  Asking for help, by `--help`, `-h`
or `help`, is not told apart from wrong use: the texts of help are not modelled. -/
def ofWords? : List String → Arguments → Option Request
  | [], _ => none
  | word :: words, outer =>
    match Word.ofString word with
    | .plain name => ofCommand? name words outer
    | .short letters =>
      match ofLetters? letters outer with
      | some (.inl outer) => ofWords? words outer
      | some (.inr request) => some request
      | none => none
    | .long name none =>
      if name = "version" then some version
      else if name ∈ Command.globalFlags then (outer.addFlag name).bind (ofWords? words)
      else none
    | _ => none

/-- The file that a request reads. -/
def path? : Request → Option String
  | version => none
  | run command _ =>
    match command.input? with
    | some (.file path) => some path
    | _ => none

end Request

end SceneFormula.CommandLine
