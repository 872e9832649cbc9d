import Kaleidoscope.Bindings
import Kaleidoscope.Decimal.Literal
import Kaleidoscope.Decimal.Shortest
import Kaleidoscope.Decimal.Fixed
import Kaleidoscope.Source.Stream
import Kaleidoscope.Operator
import Kaleidoscope.Expr
import Kaleidoscope.Prototype
import Kaleidoscope.Parser.Statement
import Kaleidoscope.Parser.Scanner
import Kaleidoscope.Registry
import Kaleidoscope.Ir.Text
import Kaleidoscope.Ir.Check
import Kaleidoscope.Lowering.Function
import Kaleidoscope.Builtin
import Kaleidoscope.Engine.Machine
import Kaleidoscope.Error
import Kaleidoscope.Session.Transcript
import Kaleidoscope.CommandLine
import Kaleidoscope.Main
import Kaleidoscope.Proofs.Evaluation
import Kaleidoscope.Proofs.Emission
import Kaleidoscope.Proofs.Growth
import Kaleidoscope.Proofs.Activation
import Kaleidoscope.Proofs.Simulation
import Kaleidoscope.Proofs.Compilation
import Kaleidoscope.Proofs.Reading
import Kaleidoscope.Proofs.Precedence
import Kaleidoscope.Proofs.Symbols
import Kaleidoscope.Proofs.Safety
import Kaleidoscope.Proofs.Truncation
import Kaleidoscope.Proofs.Naming
import Kaleidoscope.Proofs.Calls
import Kaleidoscope.Proofs.Composition
import Kaleidoscope.Proofs.Declarations
import Kaleidoscope.Proofs.Coverage
import Kaleidoscope.Proofs.Loading
import Kaleidoscope.Proofs.Turns
import Kaleidoscope.Proofs.WellFormed
import Kaleidoscope.Proofs.Arity
import Kaleidoscope.Proofs.Rollback
import Kaleidoscope.Proofs.Concord
import Kaleidoscope.Proofs.Permanence
import Kaleidoscope.Proofs.Mirror
import Kaleidoscope.Proofs.Unloading
import Kaleidoscope.Proofs.Operators
import Kaleidoscope.Proofs.OperatorTable
import Kaleidoscope.Proofs.OpenUnit
import Kaleidoscope.Proofs.Layout
import Kaleidoscope.Proofs.Construction
import Kaleidoscope.Proofs.Dominance
import Kaleidoscope.Proofs.Acceptance
import Kaleidoscope.Proofs.Scanning
import Kaleidoscope.Proofs.Position
import Kaleidoscope.Proofs.Progress
import Kaleidoscope.Proofs.Spacing
import Kaleidoscope.Proofs.Canonical
import Kaleidoscope.Proofs.ReadBack
import Kaleidoscope.Proofs.Abandonment
import Kaleidoscope.Proofs.Shadowing
import Kaleidoscope.Proofs.Spelling
import Kaleidoscope.Proofs.Contents
import Kaleidoscope.Proofs.Continuation
import Kaleidoscope.Proofs.Members
import Kaleidoscope.Proofs.Handles
import Kaleidoscope.Proofs.Recursion
import Kaleidoscope.Proofs.Fate
import Kaleidoscope.Proofs.Initialization
import Kaleidoscope.Proofs.Readers
import Kaleidoscope.Proofs.Recovery
import Kaleidoscope.Proofs.Tiling
import Kaleidoscope.Proofs.Reproduction
import Kaleidoscope.Proofs.Linking
import Kaleidoscope.Proofs.Prototypes
import Kaleidoscope.Proofs.Lookahead
import Kaleidoscope.Proofs.Agreement
import Kaleidoscope.Proofs.Indifference
