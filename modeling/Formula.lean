import Formula.Text.Ascii
import Formula.Source.Position
import Formula.Source.Cursor
import Formula.Source.Session
import Formula.Diagnostic
import Formula.Operator
import Formula.Lexeme
import Formula.Expr.Basic
import Formula.Expr.Canonical
import Formula.Expr.Dump
import Formula.Expr.Source
import Formula.Parse.Chain
import Formula.Parse.Grammar
import Formula.Markup.Basic
import Formula.Markup.MathML
import Formula.Pipeline
import Formula.Cli
import Formula.Main
import Formula.Proofs.Unread
import Formula.Proofs.Reading
import Formula.Proofs.Assembly
import Formula.Proofs.Readable
import Formula.Proofs.Printing
import Formula.Proofs.Rereading
import Formula.Proofs.Height
import Formula.Proofs.Nesting
import Formula.Proofs.Visible
import Formula.Proofs.Modes
import Formula.Proofs.Spans
import Formula.Proofs.Layout
import Formula.Proofs.Canonical
import Formula.Proofs.Renderings
import Formula.Proofs.Spacing
import Formula.Proofs.Tracking
import Formula.Proofs.Numerals
import Formula.Proofs.Precedence
import Formula.Proofs.Diagnostics
import Formula.Proofs.Reduction
import Formula.Proofs.Progress
import Formula.Proofs.MathMLReading
import Formula.Proofs.CommandLine
