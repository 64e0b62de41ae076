import Monkey.Token.Lexer
import Monkey.Tree.Equality
import Monkey.Tree.Printer
import Monkey.Grammar.Expression
import Monkey.Reading
import Monkey.Session
import Monkey.Command.Response
import Monkey.Main
import Monkey.Machine.Routines
import Monkey.Machine.Cursor
import Monkey.Machine.Scan
import Monkey.Machine.Dialogue
import Monkey.Proofs.Machine.Contracts
import Monkey.Proofs.Calls
import Monkey.Proofs.CleanRun
import Monkey.Proofs.Derivation
import Monkey.Proofs.Soundness
import Monkey.Proofs.Congruence
import Monkey.Proofs.Nesting
import Monkey.Proofs.Completeness
import Monkey.Proofs.Concatenation
import Monkey.Proofs.Agreement
import Monkey.Proofs.Canonical
import Monkey.Proofs.Machine.Termination
import Monkey.Proofs.Machine.Parsers
import Monkey.Proofs.Machine.Refinement
import Monkey.Proofs.Machine.Accounting
import Monkey.Proofs.Machine.Counters
import Monkey.Proofs.Nodes
import Monkey.Proofs.EndMark
import Monkey.Proofs.Tiling
import Monkey.Proofs.Machine.Cursor
import Monkey.Proofs.Layout
import Monkey.Proofs.Tracing
import Monkey.Proofs.Brackets
import Monkey.Proofs.Output
import Monkey.Proofs.Lines
import Monkey.Proofs.Machine.Dialogue
import Monkey.Proofs.Printable
import Monkey.Proofs.Verdict
import Monkey.Proofs.Chain
import Monkey.Proofs.Depth
import Monkey.Proofs.Braces
import Monkey.Proofs.Causes
import Monkey.Proofs.Foreign
import Monkey.Proofs.Boundary
import Monkey.Proofs.Segments
import Monkey.Proofs.Places
import Monkey.Proofs.Tally
import Monkey.Proofs.Machine.Actions
import Monkey.Proofs.Machine.Context
import Monkey.Proofs.Machine.Scan
