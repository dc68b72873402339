import SceneFormula.CommandLine.Request
import SceneFormula.Formula.Simplify
import SceneFormula.Formula.Stored
import SceneFormula.Formula.Variables
import SceneFormula.Json.Writer
import SceneFormula.Program.Grouping
import SceneFormula.Program.Json

/-!
# Outcomes

A command prints one JSON value with sorted keys, or fails with a message.  Files are given by a
table of their texts, so an outcome depends on nothing but the words and the table.
-/

namespace SceneFormula.CommandLine

/-- Why a command fails: what it was about to do, and the cause if it is known. -/
structure Failure where
  context : String
  cause : Option String

namespace Failure

/-- A text with its lines after the first indented. -/
def indented (text : String) : String :=
  String.ofList (text.toList.flatMap fun c => if c = '\n' then "\n    ".toList else [c])

def message (f : Failure) : String :=
  "Error: " ++ f.context ++ match f.cause with
    | none => ""
    | some cause => "\n\nCaused by:\n    " ++ indented cause

end Failure

/-- The texts of the files that can be read. -/
abbrev Files := String → Option String

def Input.formula (files : Files) : Input → Except Failure Formula
  | text source => .ok (.text source)
  | file path =>
    match files path with
    | none => .error ⟨"open script value '" ++ path ++ "'", none⟩
    | some stored =>
      match Formula.ofStored stored with
      | .ok f => .ok f
      | .error _ => .error ⟨"parse script value JSON", none⟩

/-- The value that a command prints. -/
def Command.result (files : Files) : Command → Except Failure (Json Int)
  | parse source strict =>
    match Expr.ofText? source, strict with
    | .error e, true => .error ⟨"parse expression '" ++ source ++ "'", some e.toError.message⟩
    | _, _ => .ok (Expr.ofText source).toFormula.toJson
  | simplify input => do return (← input.formula files).simplify.toJson
  | listVariables input => do return .array ((← input.formula files).variableIds.map .string)
  | compile input stem simplifying grouping => do
    let f ← input.formula files
    let p := (if simplifying then f.simplify else f).compile stem
    return (if grouping then p.grouped else p).toJson

inductive Outcome where
  | printed (text : String)
  | failed (failure : Failure)
  | wrongUsage

namespace Outcome

def exitCode : Outcome → UInt32
  | printed _ => 0
  | failed _ => 1
  | wrongUsage => 2

end Outcome

def versionLine : String := "scriptvalue 0.1.0\n"

def Request.outcome (files : Files) : Request → Outcome
  | version => .printed versionLine
  | run command pretty =>
    match command.result files with
    | .error failure => .failed failure
    | .ok j =>
      let text := if pretty then j.sorted.pretty else j.sorted.compact
      .printed (text ++ "\n")

/-- The outcome of the words of a command line. -/
def outcome (files : Files) (words : List String) : Outcome :=
  match Request.ofWords? words {} with
  | some request => request.outcome files
  | none => .wrongUsage

end SceneFormula.CommandLine
