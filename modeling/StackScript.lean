import StackScript.Code
import StackScript.Code.Depth
import StackScript.Code.OfProgram
import StackScript.Command
import StackScript.Command.Path
import StackScript.Command.Repl
import StackScript.Diagnostic
import StackScript.Form
import StackScript.Form.Read
import StackScript.Layout
import StackScript.Machine
import StackScript.Machine.Host
import StackScript.Machine.Memory
import StackScript.Machine.Run
import StackScript.Main
import StackScript.Module
import StackScript.Module.OfForms
import StackScript.ModuleText
import StackScript.Program
import StackScript.Program.OfTree
import StackScript.Proofs.Evaluation
import StackScript.Scope
import StackScript.Session
import StackScript.Table
import StackScript.Text.Blank
import StackScript.Text.Hidden
import StackScript.Text.Line
import StackScript.Text.Numeral
import StackScript.Text.Quoted
import StackScript.Text.Slice
import StackScript.Token
import StackScript.Token.Lexeme
import StackScript.Token.Scan
import StackScript.Tree
import StackScript.Tree.Cursor
import StackScript.Tree.OfTokens
import StackScript.Tree.Stream
import StackScript.Typing
import StackScript.Proofs.Instructions
import StackScript.Proofs.Running
import StackScript.Proofs.Simulation
import StackScript.Proofs.Reading
import StackScript.Proofs.Rendering
import StackScript.Proofs.Resolution
import StackScript.Proofs.Loading
import StackScript.Proofs.Parsed
import StackScript.Proofs.Linking
import StackScript.Proofs.Checked
import StackScript.Proofs.Units
import StackScript.Proofs.Sessions
import StackScript.Proofs.Agreement
import StackScript.Proofs.Slots
import StackScript.Proofs.Correctness
import StackScript.Proofs.Values
import StackScript.Proofs.Redeclaration
import StackScript.Proofs.TypeRules
import StackScript.Proofs.Coherence
import StackScript.Proofs.Locality
import StackScript.Proofs.Weakening
import StackScript.Proofs.Capacity
import StackScript.Proofs.Concatenation
import StackScript.Proofs.Chaining
import StackScript.Proofs.RoundTrip
import StackScript.Proofs.Generation
import StackScript.Proofs.Confinement
import StackScript.Proofs.Footprint
import StackScript.Proofs.Isolation
import StackScript.Proofs.Phrases
import StackScript.Proofs.Steps
import StackScript.Proofs.Readings
import StackScript.Proofs.Grammar
import StackScript.Proofs.Acceptance
import StackScript.Proofs.Spelling
import StackScript.Proofs.Shapes
import StackScript.Proofs.Lowering
import StackScript.Proofs.Printing
import StackScript.Proofs.Scanning
import StackScript.Proofs.Lines
import StackScript.Proofs.Operands
import StackScript.Proofs.Reparsing
import StackScript.Proofs.Structured
import StackScript.Proofs.Validation
import StackScript.Proofs.Flattening
import StackScript.Proofs.Rounds
import StackScript.Proofs.Lossless
import StackScript.Proofs.Balance
import StackScript.Proofs.Leaves
import StackScript.Proofs.Complaints
import StackScript.Proofs.Blame
import StackScript.Proofs.Positions
import StackScript.Proofs.Termination
import StackScript.Proofs.LineCuts
import StackScript.Proofs.Alike
import StackScript.Proofs.BlankLines
import StackScript.Proofs.Columns
import StackScript.Proofs.WordsAhead
import StackScript.Proofs.LogicalLines
import StackScript.Proofs.Cutoffs
import StackScript.Proofs.StructuralTraps
import StackScript.Proofs.Offsets
import StackScript.Proofs.FormText
import StackScript.Proofs.Unfolding
import StackScript.Proofs.Layers
import StackScript.Proofs.FirstUnits
import StackScript.Proofs.Carets
import StackScript.Proofs.FormLexemes
import StackScript.Proofs.Nesting
import StackScript.Proofs.Overlaps
import StackScript.Proofs.LineLookup
import StackScript.Proofs.DepthCount
import StackScript.Proofs.Neutrality
