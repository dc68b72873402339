import SceneFormula.Main
import SceneFormula.Program.Run
import SceneFormula.Proofs.Building
import SceneFormula.Proofs.CallLog
import SceneFormula.Proofs.CommandLine
import SceneFormula.Proofs.CommandLine.Texts
import SceneFormula.Proofs.Compilation
import SceneFormula.Proofs.ConstantFolding
import SceneFormula.Proofs.Cost
import SceneFormula.Proofs.Grammar
import SceneFormula.Proofs.Grouping
import SceneFormula.Proofs.Handoff
import SceneFormula.Proofs.Json.Numeral
import SceneFormula.Proofs.Json.Quoted
import SceneFormula.Proofs.Json.Sorted
import SceneFormula.Proofs.Json.Text
import SceneFormula.Proofs.Literals
import SceneFormula.Proofs.Locals
import SceneFormula.Proofs.NormalForm
import SceneFormula.Proofs.Parsing
import SceneFormula.Proofs.Parsing.Levels
import SceneFormula.Proofs.Passes
import SceneFormula.Proofs.Printing
import SceneFormula.Proofs.Readability
import SceneFormula.Proofs.References
import SceneFormula.Proofs.References.Agreement
import SceneFormula.Proofs.References.Canonical
import SceneFormula.Proofs.References.Scanning
import SceneFormula.Proofs.Renaming
import SceneFormula.Proofs.Search
import SceneFormula.Proofs.Simplification
import SceneFormula.Proofs.Spelling
import SceneFormula.Proofs.StackDiscipline
import SceneFormula.Proofs.Storage
import SceneFormula.Proofs.Storage.Converted
import SceneFormula.Proofs.Storage.Decoding
import SceneFormula.Proofs.Storage.Integers
import SceneFormula.Proofs.Storage.Loading
import SceneFormula.Proofs.Variables
import SceneFormula.Proofs.Lexing.Cursor
import SceneFormula.Proofs.Lexing
import SceneFormula.Proofs.Lexing.Spacing
import SceneFormula.Proofs.Parsing.Machine
import SceneFormula.Proofs.Parsing.Recursion
import SceneFormula.Proofs.Parsing.Execution
import SceneFormula.Proofs.Parsing.Faults
import SceneFormula.Proofs.Arithmetic
import SceneFormula.Proofs.SquareRoot
