import LispCompiler.Compiler.Generate
import LispCompiler.Main
import LispCompiler.Proofs.Compiler.Acceptance
import LispCompiler.Proofs.Compiler.Balance
import LispCompiler.Proofs.Compiler.Declarations
import LispCompiler.Proofs.Compiler.Definitions
import LispCompiler.Proofs.Compiler.ExpandedAhead
import LispCompiler.Proofs.Compiler.Lines
import LispCompiler.Proofs.Compiler.Loading
import LispCompiler.Proofs.Compiler.Recursion
import LispCompiler.Proofs.Compiler.SequencedMacros
import LispCompiler.Proofs.Compiler.Statements
import LispCompiler.Proofs.Compiler.Targets
import LispCompiler.Proofs.Datum.Concatenation
import LispCompiler.Proofs.Datum.Continuation
import LispCompiler.Proofs.Datum.Machine
import LispCompiler.Proofs.Datum.RoundTrip
import LispCompiler.Proofs.Interpreter.Expansions
import LispCompiler.Proofs.Interpreter.Protocol
import LispCompiler.Proofs.Datum.Wrapping
import LispCompiler.Proofs.Compiler.Fragments
import LispCompiler.Proofs.Compiler.MacroNesting
import LispCompiler.Proofs.Target.Grouping
import LispCompiler.Proofs.Compiler.Grouping
import LispCompiler.Proofs.Target.Assignment
import LispCompiler.Proofs.Compiler.Assignments
import LispCompiler.Proofs.Datum.HeadAndTail
import LispCompiler.Proofs.Text.CodeUnits
import LispCompiler.Proofs.Datum.FloatRoundTrip
import LispCompiler.Proofs.Interpreter.Requests
import LispCompiler.Proofs.Token.Quotation
import LispCompiler.Proofs.Datum.Classification
import LispCompiler.Proofs.Target.Interpolation
import LispCompiler.Proofs.Datum.Recovery
import LispCompiler.Proofs.Target.Identifiers
import LispCompiler.Proofs.CommandLine.Batch
import LispCompiler.Proofs.Compiler.Precedence
import LispCompiler.Proofs.Datum.Depth
import LispCompiler.Proofs.Token.Unquoting
