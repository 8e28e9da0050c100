import Frontend.Command
import Frontend.Decimal.Binary64
import Frontend.Decimal.Layout
import Frontend.Decimal.Shortest
import Frontend.Diagnostic.Basic
import Frontend.Diagnostic.Report
import Frontend.Grammar.Power
import Frontend.Grammar.Rules
import Frontend.Literal
import Frontend.Main
import Frontend.Parser.Basic
import Frontend.Parser.Expr
import Frontend.Parser.Operation
import Frontend.Parser.Program
import Frontend.Parser.State
import Frontend.Parser.Stmt
import Frontend.Proofs.Accounting
import Frontend.Proofs.Along
import Frontend.Proofs.BlockNesting
import Frontend.Proofs.Boundary
import Frontend.Proofs.Caret
import Frontend.Proofs.Course
import Frontend.Proofs.Cursor
import Frontend.Proofs.Essence
import Frontend.Proofs.ExprExact
import Frontend.Proofs.ExprReading
import Frontend.Proofs.ExprSeam
import Frontend.Proofs.ExprSpelling
import Frontend.Proofs.FaultOrder
import Frontend.Proofs.Layout
import Frontend.Proofs.LexicalReport
import Frontend.Proofs.LineBreaks
import Frontend.Proofs.LineLookup
import Frontend.Proofs.Lockstep
import Frontend.Proofs.LongestMatch
import Frontend.Proofs.Nesting
import Frontend.Proofs.Numerals
import Frontend.Proofs.Outcome
import Frontend.Proofs.Partition
import Frontend.Proofs.Precedence
import Frontend.Proofs.Printing
import Frontend.Proofs.Progress
import Frontend.Proofs.Regrouping
import Frontend.Proofs.Relabel
import Frontend.Proofs.Relexing
import Frontend.Proofs.Rendering
import Frontend.Proofs.Reportable
import Frontend.Proofs.Reprinting
import Frontend.Proofs.Rereading
import Frontend.Proofs.ScanJoin
import Frontend.Proofs.ScanSlice
import Frontend.Proofs.Scanning
import Frontend.Proofs.Seam
import Frontend.Proofs.Slices
import Frontend.Proofs.Spans
import Frontend.Proofs.Standing
import Frontend.Proofs.StmtCalls
import Frontend.Proofs.StmtEntries
import Frontend.Proofs.StmtExact
import Frontend.Proofs.StmtReading
import Frontend.Proofs.StmtSeam
import Frontend.Proofs.StmtSpelling
import Frontend.Proofs.Tape
import Frontend.Proofs.Window
import Frontend.Proofs.Wording
import Frontend.Source.Line
import Frontend.Source.Position
import Frontend.Text.Blank
import Frontend.Text.Cut
import Frontend.Text.Extending
import Frontend.Text.Ignorable
import Frontend.Text.Quoted
import Frontend.Text.Size
import Frontend.Text.Unprintable
import Frontend.Token.Basic
import Frontend.Token.Cursor
import Frontend.Token.Kind
import Frontend.Token.Piece
import Frontend.Token.Scanner
import Frontend.Token.Stream
import Frontend.Tree.Expr
import Frontend.Tree.Outline
import Frontend.Tree.Stmt
