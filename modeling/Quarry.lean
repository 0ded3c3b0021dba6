import Quarry.Arguments
import Quarry.Batch
import Quarry.Command
import Quarry.Config
import Quarry.Document.Basic
import Quarry.Document.Json
import Quarry.Document.Lookup
import Quarry.Expr.Aggregate
import Quarry.Expr.Apply
import Quarry.Expr.Basic
import Quarry.Expr.Equality
import Quarry.Expr.Eval
import Quarry.Expr.Fold
import Quarry.Expr.Lexer
import Quarry.Expr.Parser
import Quarry.Expr.Printer
import Quarry.Expr.Scope
import Quarry.Expr.Token
import Quarry.Expr.Wire
import Quarry.Json.Parser
import Quarry.Json.Pretty
import Quarry.Json.Printer
import Quarry.Json.Reader
import Quarry.Json.Record
import Quarry.Json.Scan
import Quarry.Json.Tagged
import Quarry.Json.Value
import Quarry.Json.Writer
import Quarry.Lambda
import Quarry.Main
import Quarry.Numeral.Dyadic
import Quarry.Numeral.Fixed
import Quarry.Numeral.Layout
import Quarry.Numeral.Power
import Quarry.Numeral.Reading
import Quarry.Numeral.Shortest
import Quarry.Patch.Operation
import Quarry.Patch.Patcher
import Quarry.Patch.Splice
import Quarry.Patch.Target
import Quarry.Patch.Tree
import Quarry.Path
import Quarry.Pointer
import Quarry.Pool
import Quarry.Scalar.Arithmetic
import Quarry.Scalar.Atom
import Quarry.Scalar.Basic
import Quarry.Scalar.Compare
import Quarry.Scalar.Json
import Quarry.Scalar.Logic
import Quarry.Select.PathTree
import Quarry.Select.Selector
import Quarry.Sql
import Quarry.Text.Alphabetic
import Quarry.Text.Blank
import Quarry.Text.Bytes
import Quarry.Text.Printable
import Quarry.Text.Quoted
import Quarry.Text.Ranges
import Quarry.Text.Split
import Quarry.Proofs.Json.Numbers
import Quarry.Proofs.Json.Strings
import Quarry.Proofs.Json.Token
import Quarry.Proofs.Json.Lead
import Quarry.Proofs.Json.Passage
import Quarry.Proofs.Json.Members
import Quarry.Proofs.Document.Content
import Quarry.Proofs.Document.Nodes
import Quarry.Proofs.Document.Equality
import Quarry.Proofs.Document.Reading
import Quarry.Proofs.Json.Escapes
import Quarry.Proofs.Numeral.Shortest
import Quarry.Proofs.Json.Figures
import Quarry.Proofs.Document.Printing
import Quarry.Proofs.Patch.Merged
import Quarry.Proofs.Patch.Walk
import Quarry.Proofs.Patch.Splicing
import Quarry.Proofs.Patch.Change
import Quarry.Proofs.Patch.Edited
import Quarry.Proofs.Patch.Disjoint
import Quarry.Proofs.Patch.Verbatim
import Quarry.Proofs.Json.Onward
import Quarry.Proofs.Select.Reading
import Quarry.Proofs.Select.PathTree
import Quarry.Proofs.Select.Calls
import Quarry.Proofs.Select.Matching
import Quarry.Proofs.Json.Utf8
import Quarry.Proofs.Select.Collecting
import Quarry.Proofs.Select.Selecting
import Quarry.Proofs.Patch.Acceptance
import Quarry.Proofs.Patch.Failing
import Quarry.Proofs.Json.Texts
import Quarry.Proofs.Expr.Rereading
import Quarry.Proofs.Expr.Folding
import Quarry.Proofs.Expr.Running
import Quarry.Proofs.Expr.Wired
import Quarry.Proofs.Expr.Compiled
import Quarry.Proofs.Expr.Typed
import Quarry.Proofs.Expr.Failing
import Quarry.Proofs.Expr.Renaming
import Quarry.Proofs.Reuse
import Quarry.Proofs.Lambda
import Quarry.Proofs.Json.Stacked
import Quarry.Proofs.Select.Numbering
import Quarry.Proofs.Patch.Arena
import Quarry.Proofs.Patch.Engine
import Quarry.Proofs.Select.Stacked
import Quarry.Proofs.Batch
import Quarry.Proofs.Select.Fields
import Quarry.Proofs.Projection
import Quarry.Proofs.Json.Drafts
import Quarry.Proofs.Patch.Alone
import Quarry.Proofs.Sql.Stacked
import Quarry.Proofs.Sql.Hollow
import Quarry.Proofs.Sql.Parsed
import Quarry.Proofs.Document.Matching
import Quarry.Proofs.Document.Spans
import Quarry.Proofs.Expr.Elementwise
import Quarry.Proofs.Expr.Summing
import Quarry.Proofs.Scalar.Connectives
import Quarry.Proofs.Scalar.Integers
import Quarry.Proofs.Expr.Extremes
import Quarry.Proofs.Numeral.Fixed
import Quarry.Proofs.Numeral.Normalized
import Quarry.Proofs.Expr.Averaging
import Quarry.Proofs.Expr.Counting
import Quarry.Proofs.Path
import Quarry.Proofs.Pointer
import Quarry.Proofs.Expr.Checking
import Quarry.Proofs.Expr.Parsing
import Quarry.Proofs.Lending
import Quarry.Proofs.Sql.Addresses
import Quarry.Proofs.Copies
import Quarry.Proofs.Selection
import Quarry.Proofs.Expr.Settled
import Quarry.Proofs.Json.Progress
import Quarry.Proofs.Json.Brackets
import Quarry.Proofs.Patch.Recorded
