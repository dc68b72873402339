import SceneFormula.CommandLine.Outcome

/-!
# The program

Reads the file that the words name, if they name one, and prints the outcome.
-/

namespace SceneFormula.CommandLine

def loadFile (path : String) : IO (Option String) :=
  try
    return some (← IO.FS.readFile path)
  catch _ =>
    return none

def usageLine : String := "usage: scriptvalue [--pretty] [-v] parse|optimise|vars|precompile ..."

def execute (words : List String) : IO UInt32 := do
  let path := (Request.ofWords? words {}).bind Request.path?
  let stored ← match path with
    | none => pure none
    | some path => loadFile path
  let result := outcome (fun p => if some p = path then stored else none) words
  match result with
  | .printed text => IO.print text
  | .failed failure => IO.eprintln failure.message
  | .wrongUsage => IO.eprintln usageLine
  return result.exitCode

end SceneFormula.CommandLine

def main (words : List String) : IO UInt32 := SceneFormula.CommandLine.execute words
