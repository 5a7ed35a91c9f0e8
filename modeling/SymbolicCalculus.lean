import SymbolicCalculus.Operator
import SymbolicCalculus.Token
import SymbolicCalculus.Failure
import SymbolicCalculus.Items
import SymbolicCalculus.Lexer
import SymbolicCalculus.Scalar
import SymbolicCalculus.Expr
import SymbolicCalculus.Suggestion
import SymbolicCalculus.Grammar
import SymbolicCalculus.Parser
import SymbolicCalculus.Binary64
import SymbolicCalculus.Decimal
import SymbolicCalculus.DecimalReading
import SymbolicCalculus.RealNumber
import SymbolicCalculus.ComplexNumber
import SymbolicCalculus.Bindings
import SymbolicCalculus.Evaluation
import SymbolicCalculus.Derivative
import SymbolicCalculus.Substitution
import SymbolicCalculus.Report
import SymbolicCalculus.Replay
import SymbolicCalculus.Session
import SymbolicCalculus.Line
import SymbolicCalculus.Shell
import SymbolicCalculus.CommandLine
import SymbolicCalculus.Main
import SymbolicCalculus.Proofs.Phrase
import SymbolicCalculus.Proofs.Readings
import SymbolicCalculus.Proofs.Acceptance
import SymbolicCalculus.Proofs.Limits
import SymbolicCalculus.Proofs.Cutting
import SymbolicCalculus.Proofs.Recognition
import SymbolicCalculus.Proofs.Lexing
import SymbolicCalculus.Proofs.Rendering
import SymbolicCalculus.Proofs.Faults
import SymbolicCalculus.Proofs.RealLiterals
import SymbolicCalculus.Proofs.Diagnosis
import SymbolicCalculus.Proofs.Values
import SymbolicCalculus.Proofs.DualNumbers
import SymbolicCalculus.Proofs.Nesting
import SymbolicCalculus.Proofs.Depths
import SymbolicCalculus.Proofs.Buffering
import SymbolicCalculus.Proofs.Resumption
import SymbolicCalculus.Proofs.Rounding
import SymbolicCalculus.Proofs.DecimalTexts
import SymbolicCalculus.Proofs.RealTexts
import SymbolicCalculus.Proofs.Rereading
import SymbolicCalculus.Proofs.Bytes
import SymbolicCalculus.Proofs.Partition
import SymbolicCalculus.Proofs.Replacement
import SymbolicCalculus.Proofs.Assignments
import SymbolicCalculus.Proofs.Listing
import SymbolicCalculus.Proofs.Dialogue
import SymbolicCalculus.Proofs.TokenClasses
import SymbolicCalculus.Proofs.Blame
import SymbolicCalculus.Proofs.LongestMatch
import SymbolicCalculus.Proofs.HigherLimits
import SymbolicCalculus.Proofs.ReadingOrder
import SymbolicCalculus.Proofs.Unbound
import SymbolicCalculus.Proofs.Occurrences
import SymbolicCalculus.Proofs.Vanishing
import SymbolicCalculus.Proofs.Growth
import SymbolicCalculus.Proofs.Suffixes
import SymbolicCalculus.Proofs.Commutation
import SymbolicCalculus.Proofs.LiteralFree
import SymbolicCalculus.Proofs.Places
import SymbolicCalculus.Proofs.Unplaced
import SymbolicCalculus.Proofs.Layout
import SymbolicCalculus.Proofs.Commands
import SymbolicCalculus.Proofs.Leaves
import SymbolicCalculus.Proofs.Snapshots
import SymbolicCalculus.Proofs.UniqueReading
import SymbolicCalculus.Proofs.Identifiers
import SymbolicCalculus.Proofs.Restoring
import SymbolicCalculus.Proofs.Edits
import SymbolicCalculus.Proofs.Suggestions
import SymbolicCalculus.Proofs.Invocations
import SymbolicCalculus.Proofs.Watching
import SymbolicCalculus.Proofs.Arguments
