import Lox.Bindings
import Lox.CommandLine
import Lox.Diagnostic
import Lox.Distances
import Lox.Evaluation
import Lox.Execution
import Lox.Fault
import Lox.Files
import Lox.Grammar
import Lox.Grammar.Expression
import Lox.Grammar.State
import Lox.Grammar.Statement
import Lox.Machine
import Lox.Main
import Lox.Number
import Lox.Number.Layout
import Lox.Number.Parts
import Lox.Number.Shortest
import Lox.Operator
import Lox.Proofs.Alike.Boxed
import Lox.Proofs.Alike.Effects
import Lox.Proofs.Alike.Evaluation
import Lox.Proofs.Alike.Joined
import Lox.Proofs.Alike.Machines
import Lox.Proofs.Alike.Renamed
import Lox.Proofs.Alike.Runs
import Lox.Proofs.Alike.Together
import Lox.Proofs.Alike.Traces
import Lox.Proofs.Alike.Trees
import Lox.Proofs.Box.Runs
import Lox.Proofs.Box.Trees
import Lox.Proofs.Box.Walk
import Lox.Proofs.Box.Wraps
import Lox.Proofs.Grammar.Acceptance
import Lox.Proofs.Grammar.Ambiguity
import Lox.Proofs.Grammar.Built
import Lox.Proofs.Grammar.Calls
import Lox.Proofs.Grammar.Clauses
import Lox.Proofs.Grammar.Complete
import Lox.Proofs.Grammar.Derivable
import Lox.Proofs.Grammar.Ends
import Lox.Proofs.Grammar.Follow
import Lox.Proofs.Grammar.Goals
import Lox.Proofs.Grammar.Loops
import Lox.Proofs.Grammar.Loose
import Lox.Proofs.Grammar.Misplaced
import Lox.Proofs.Grammar.Offending
import Lox.Proofs.Grammar.Operands
import Lox.Proofs.Grammar.Piecewise
import Lox.Proofs.Grammar.Positions
import Lox.Proofs.Grammar.Productions
import Lox.Proofs.Grammar.Programs
import Lox.Proofs.Grammar.Progress
import Lox.Proofs.Grammar.Recovery
import Lox.Proofs.Grammar.Segments
import Lox.Proofs.Grammar.Shifted
import Lox.Proofs.Grammar.Slots
import Lox.Proofs.Grammar.Sound
import Lox.Proofs.Grammar.Spelled
import Lox.Proofs.Grammar.Statements
import Lox.Proofs.Grammar.Tidied
import Lox.Proofs.Grammar.Tracked
import Lox.Proofs.Grammar.Walked
import Lox.Proofs.Printed.Numbers
import Lox.Proofs.Printed.Reading
import Lox.Proofs.Printed.Shape
import Lox.Proofs.Printed.Spelled
import Lox.Proofs.Printed.Trees
import Lox.Proofs.Printed.Unambiguous
import Lox.Proofs.Rename.Mirror
import Lox.Proofs.Rename.Names
import Lox.Proofs.Rename.Program
import Lox.Proofs.Rename.Runs
import Lox.Proofs.Rename.Tokens
import Lox.Proofs.Run.Agreement
import Lox.Proofs.Run.Carried
import Lox.Proofs.Run.Chains
import Lox.Proofs.Run.Course
import Lox.Proofs.Run.Dispatch
import Lox.Proofs.Run.Echoed
import Lox.Proofs.Run.Effects
import Lox.Proofs.Run.Endless
import Lox.Proofs.Run.Founded
import Lox.Proofs.Run.Growth
import Lox.Proofs.Run.Heap
import Lox.Proofs.Run.Jumps
import Lox.Proofs.Run.Layout
import Lox.Proofs.Run.Lookup
import Lox.Proofs.Run.Moment
import Lox.Proofs.Run.Numbering
import Lox.Proofs.Run.Outlasts
import Lox.Proofs.Run.Overflow
import Lox.Proofs.Run.Primitive
import Lox.Proofs.Run.Receivers
import Lox.Proofs.Run.Relined
import Lox.Proofs.Run.Restored
import Lox.Proofs.Run.Safe
import Lox.Proofs.Run.Sealed
import Lox.Proofs.Run.Sessions
import Lox.Proofs.Run.Soundness
import Lox.Proofs.Run.Stepped
import Lox.Proofs.Run.Underway
import Lox.Proofs.Run.Upheld
import Lox.Proofs.Run.Walks
import Lox.Proofs.Scope.Binding
import Lox.Proofs.Scope.Contexts
import Lox.Proofs.Scope.Declarations
import Lox.Proofs.Scope.Framed
import Lox.Proofs.Scope.Heard
import Lox.Proofs.Scope.Independent
import Lox.Proofs.Scope.Ledger
import Lox.Proofs.Scope.Lexical
import Lox.Proofs.Scope.Placement
import Lox.Proofs.Scope.Resolved
import Lox.Proofs.Scope.Shape
import Lox.Proofs.Scope.Shifted
import Lox.Proofs.Scope.Table
import Lox.Proofs.Scope.Walk
import Lox.Proofs.Store.Shadowing
import Lox.Proofs.Token.Cuts
import Lox.Proofs.Token.Fitting
import Lox.Proofs.Token.Lexemes
import Lox.Proofs.Token.Lines
import Lox.Proofs.Token.Located
import Lox.Proofs.Token.Reworded
import Lox.Proofs.Token.Separated
import Lox.Proofs.Token.Words
import Lox.Proofs.Tree.Parts
import Lox.Proofs.Tree.Shift
import Lox.Scope
import Lox.Scope.Resolution
import Lox.Session
import Lox.Store
import Lox.Text.Blank
import Lox.Text.Quoted
import Lox.Token
import Lox.Token.Piece
import Lox.Token.Scan
import Lox.Tree
import Lox.Tree.Printer
import Lox.Value
