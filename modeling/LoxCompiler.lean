import LoxCompiler.Bytecode.Function
import LoxCompiler.Bytecode.Instruction
import LoxCompiler.Bytecode.Listing
import LoxCompiler.Bytecode.Opcode
import LoxCompiler.Bytecode.Width
import LoxCompiler.CommandLine
import LoxCompiler.Compilation
import LoxCompiler.Diagnostic
import LoxCompiler.Event
import LoxCompiler.Expression.Precedence
import LoxCompiler.Expression.Rule
import LoxCompiler.Fault
import LoxCompiler.Frame.Basic
import LoxCompiler.Frame.Stack
import LoxCompiler.Grammar.Declaration
import LoxCompiler.Grammar.Expression
import LoxCompiler.Grammar.Statement
import LoxCompiler.Main
import LoxCompiler.Number.Binary64
import LoxCompiler.Number.Power
import LoxCompiler.Number.Rounding
import LoxCompiler.Number.Shortest
import LoxCompiler.Program
import LoxCompiler.Quantity
import LoxCompiler.Reader
import LoxCompiler.Session.Basic
import LoxCompiler.Session.Code
import LoxCompiler.Session.Nesting
import LoxCompiler.Session.Scope
import LoxCompiler.Session.Variable
import LoxCompiler.Source.Cursor
import LoxCompiler.Source.Position
import LoxCompiler.Symbol
import LoxCompiler.Text.Bytes
import LoxCompiler.Text.Layout
import LoxCompiler.Text.Utf8
import LoxCompiler.Token.Automaton
import LoxCompiler.Token.Basic
import LoxCompiler.Token.Error
import LoxCompiler.Token.Lexeme
import LoxCompiler.Token.Scan
import LoxCompiler.Proofs.Syntax.Grammar
import LoxCompiler.Proofs.Run.Constructs
import LoxCompiler.Proofs.Blueprint.Environment
import LoxCompiler.Proofs.Blueprint.Program
import LoxCompiler.Proofs.Blueprint.Rules
import LoxCompiler.Proofs.Parsing.DeclarationComplete
import LoxCompiler.Proofs.Simulation.Capture
import LoxCompiler.Proofs.Simulation.Declaration
import LoxCompiler.Proofs.Scanning.Source
import LoxCompiler.Proofs.Simulation.Script
import LoxCompiler.Proofs.Acceptance
import LoxCompiler.Proofs.Totality
import LoxCompiler.Proofs.Parsing.Unique
import LoxCompiler.Proofs.PostOrder.Rendered
import LoxCompiler.Proofs.Control.Layout
import LoxCompiler.Proofs.Blueprint.Bodies
import LoxCompiler.Proofs.WellFormed.Piece
import LoxCompiler.Proofs.WellFormed.Program
import LoxCompiler.Proofs.Recovery.Boundary
import LoxCompiler.Proofs.Recovery.Cascade
import LoxCompiler.Proofs.Scanning.Lexicon
import LoxCompiler.Proofs.Scanning.Reference
import LoxCompiler.Proofs.Scanning.Symbols
import LoxCompiler.Proofs.Invariant.Constructs
import LoxCompiler.Proofs.Invariant.Source
import LoxCompiler.Proofs.Control.Program
import LoxCompiler.Proofs.Machine.Compiled
import LoxCompiler.Proofs.Machine.Jumps
import LoxCompiler.Proofs.Machine.Verifier
import LoxCompiler.Proofs.Control.Heights
import LoxCompiler.Proofs.Machine.Heights
import LoxCompiler.Proofs.Machine.Structure
import LoxCompiler.Proofs.Blueprint.Occurrences
import LoxCompiler.Proofs.Machine.Closures
import LoxCompiler.Proofs.Machine.Resolution
import LoxCompiler.Proofs.Blueprint.Mentions
import LoxCompiler.Proofs.Machine.Captures
import LoxCompiler.Proofs.Control.Sites
import LoxCompiler.Proofs.Control.Scopes
import LoxCompiler.Proofs.Machine.Scopes
import LoxCompiler.Proofs.Control.Members
import LoxCompiler.Proofs.Control.Classes
import LoxCompiler.Proofs.Invariant.Receiver
import LoxCompiler.Proofs.Machine.Classes
import LoxCompiler.Proofs.Machine.Returns
import LoxCompiler.Proofs.Control.Receivers
import LoxCompiler.Proofs.Machine.Receivers
import LoxCompiler.Proofs.Limits.Cells
import LoxCompiler.Proofs.Limits.Agreement
import LoxCompiler.Proofs.Limits.Steps
import LoxCompiler.Proofs.Limits.Capture
import LoxCompiler.Proofs.Limits.Constructs
import LoxCompiler.Proofs.Limits.Exact
import LoxCompiler.Proofs.Reports.Source
import LoxCompiler.Proofs.Viable.Source
import LoxCompiler.Proofs.Syntax.Rename
import LoxCompiler.Proofs.Coding.Decode
import LoxCompiler.Proofs.Stack.Built
import LoxCompiler.Proofs.Parallel.Alike
import LoxCompiler.Proofs.Parallel.Constructs
import LoxCompiler.Proofs.Parallel.Source
import LoxCompiler.Proofs.Binding.Agreement
import LoxCompiler.Proofs.Binding.Bound
import LoxCompiler.Proofs.Binding.Code
import LoxCompiler.Proofs.Binding.Lines
import LoxCompiler.Proofs.Binding.Numbers
import LoxCompiler.Proofs.Binding.Rules
import LoxCompiler.Proofs.Binding.Source
import LoxCompiler.Proofs.History.Constructs
import LoxCompiler.Proofs.History.Source
import LoxCompiler.Proofs.History.Tables
