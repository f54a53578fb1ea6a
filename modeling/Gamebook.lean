import Gamebook.CommandLine.Request
import Gamebook.CommandLine.Run
import Gamebook.Compiler
import Gamebook.Data.Basic
import Gamebook.Data.Json
import Gamebook.Document.Basic
import Gamebook.Document.Form
import Gamebook.Document.Record
import Gamebook.Document.Same
import Gamebook.Document.Table
import Gamebook.Document.Warning
import Gamebook.Eval.Basic
import Gamebook.Expr.Basic
import Gamebook.Expr.Describe
import Gamebook.Expr.Form
import Gamebook.Expr.Infix
import Gamebook.Expr.Lexeme
import Gamebook.Expr.Machine
import Gamebook.Expr.Probe
import Gamebook.Files.Disk
import Gamebook.Files.Name
import Gamebook.Line.Read
import Gamebook.Line.Slot
import Gamebook.Line.Token
import Gamebook.Main
import Gamebook.Number.Basic
import Gamebook.Number.Decoded
import Gamebook.Number.Nearest
import Gamebook.Number.Numeral
import Gamebook.Number.Power
import Gamebook.Number.Shortest
import Gamebook.Number.Text
import Gamebook.Proofs.Accounts
import Gamebook.Proofs.Agreement
import Gamebook.Proofs.Atomicity
import Gamebook.Proofs.Calls
import Gamebook.Proofs.Chains
import Gamebook.Proofs.Comments
import Gamebook.Proofs.Compiling
import Gamebook.Proofs.Composition
import Gamebook.Proofs.Confinement
import Gamebook.Proofs.Conjunction
import Gamebook.Proofs.Definedness
import Gamebook.Proofs.Dependence
import Gamebook.Proofs.Depth
import Gamebook.Proofs.Disks
import Gamebook.Proofs.Doubles
import Gamebook.Proofs.Effects
import Gamebook.Proofs.Enclosure
import Gamebook.Proofs.Extension
import Gamebook.Proofs.Extent
import Gamebook.Proofs.Failures
import Gamebook.Proofs.Faults
import Gamebook.Proofs.Forms
import Gamebook.Proofs.Frames
import Gamebook.Proofs.Gathering
import Gamebook.Proofs.Grouping
import Gamebook.Proofs.Holdings
import Gamebook.Proofs.Invariant
import Gamebook.Proofs.Leaves
import Gamebook.Proofs.Lines
import Gamebook.Proofs.Literals
import Gamebook.Proofs.Locality
import Gamebook.Proofs.Lookahead
import Gamebook.Proofs.Loops
import Gamebook.Proofs.Lossless
import Gamebook.Proofs.Matching
import Gamebook.Proofs.Naming
import Gamebook.Proofs.Nesting
import Gamebook.Proofs.Numerals
import Gamebook.Proofs.Offsets
import Gamebook.Proofs.Operand
import Gamebook.Proofs.Order
import Gamebook.Proofs.Overflow
import Gamebook.Proofs.Pointing
import Gamebook.Proofs.Precedence
import Gamebook.Proofs.Printing
import Gamebook.Proofs.Proper
import Gamebook.Proofs.Provenance
import Gamebook.Proofs.Recovery
import Gamebook.Proofs.Registries
import Gamebook.Proofs.Relocation
import Gamebook.Proofs.Rendering
import Gamebook.Proofs.RoundTrip
import Gamebook.Proofs.Sections
import Gamebook.Proofs.Separation
import Gamebook.Proofs.Shapes
import Gamebook.Proofs.Spelling
import Gamebook.Proofs.Strictness
import Gamebook.Proofs.Transport
import Gamebook.Proofs.Trees
import Gamebook.Proofs.Turns
import Gamebook.Proofs.Upkeep
import Gamebook.Proofs.Usage
import Gamebook.Script.Entry
import Gamebook.Script.Progress
import Gamebook.Script.Read
import Gamebook.Script.Scope
import Gamebook.Script.Statement
import Gamebook.Source.Cursor
import Gamebook.Source.Diagnostic
import Gamebook.Source.Fault
import Gamebook.Source.Grammar
import Gamebook.Source.Location
import Gamebook.Source.Pattern
import Gamebook.Source.Probe
import Gamebook.Text.Digit
import Gamebook.Text.Pieces
import Gamebook.Text.Printable
import Gamebook.Text.Quoted
import Gamebook.Text.Utf8
import Gamebook.Value.Arithmetic
import Gamebook.Value.Basic
import Gamebook.Value.Order
