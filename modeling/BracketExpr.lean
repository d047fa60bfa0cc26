import BracketExpr.Classify
import BracketExpr.Command.Failure
import BracketExpr.Command.Input
import BracketExpr.Command.Invocation
import BracketExpr.Command.Line
import BracketExpr.Command.Manual
import BracketExpr.Command.Run
import BracketExpr.Command.Task
import BracketExpr.Cursor
import BracketExpr.Cursor.Entry
import BracketExpr.Cursor.Operation
import BracketExpr.Diagnostic
import BracketExpr.Fault
import BracketExpr.Json.Basic
import BracketExpr.Json.Tree
import BracketExpr.Lexeme.Boolean
import BracketExpr.Lexeme.Name
import BracketExpr.Lexeme.Numeral
import BracketExpr.Lexeme.Quoted
import BracketExpr.Main
import BracketExpr.Reader
import BracketExpr.Text
import BracketExpr.Tree.Basic
import BracketExpr.Tree.Canonical
import BracketExpr.Tree.Equality
import BracketExpr.Tree.Nesting
import BracketExpr.Tree.Production
import BracketExpr.Tree.Reader
import BracketExpr.Proofs.Grammar
import BracketExpr.Proofs.Reading
import BracketExpr.Proofs.Lexeme
import BracketExpr.Proofs.Soundness
import BracketExpr.Proofs.Completeness
import BracketExpr.Proofs.Recognition
import BracketExpr.Proofs.Simulation
import BracketExpr.Proofs.CountedReading
import BracketExpr.Proofs.Limit
import BracketExpr.Proofs.RoundTrip
import BracketExpr.Proofs.NormalForm
import BracketExpr.Proofs.ByteOffset
import BracketExpr.Proofs.DiagnosticPlace
import BracketExpr.Proofs.Completion
import BracketExpr.Proofs.NestedReading
import BracketExpr.Proofs.LexemeEnd
import BracketExpr.Proofs.NoInjection
import BracketExpr.Proofs.Settling
import BracketExpr.Proofs.Truncation
import BracketExpr.Proofs.JsonText
import BracketExpr.Proofs.StatementJson
import BracketExpr.Proofs.Outline
import BracketExpr.Proofs.CalleeScan
import BracketExpr.Proofs.BracketBalance
import BracketExpr.Proofs.Session
import BracketExpr.Proofs.CursorReading
import BracketExpr.Proofs.Respacing
import BracketExpr.Proofs.QuotedExactness
import BracketExpr.Proofs.NumberExactness
import BracketExpr.Proofs.JsonLayout
import BracketExpr.Proofs.Rendering
import BracketExpr.Proofs.ByteCursor
import BracketExpr.Proofs.CallDetection
import BracketExpr.Proofs.ByteCursorAgreement
import BracketExpr.Proofs.ByteReading
import BracketExpr.Proofs.Locality
import BracketExpr.Proofs.CursorSafety
import BracketExpr.Proofs.Pattern
import BracketExpr.Proofs.NameExactness
