import MarkupPath.Evaluation.Axis
import MarkupPath.Evaluation.Eval
import MarkupPath.Evaluation.Value
import MarkupPath.Markup.Attribute
import MarkupPath.Markup.Cursor
import MarkupPath.Markup.Event
import MarkupPath.Markup.Event.Read
import MarkupPath.Markup.Name
import MarkupPath.Markup.Reader
import MarkupPath.Markup.Reference
import MarkupPath.Markup.Writer
import MarkupPath.Number.Binary
import MarkupPath.Number.Bytes
import MarkupPath.Number.Decimal
import MarkupPath.Number.Text
import MarkupPath.Proofs.Evaluation.Axis
import MarkupPath.Proofs.Evaluation.Chain
import MarkupPath.Proofs.Evaluation.Composition
import MarkupPath.Proofs.Evaluation.Decided
import MarkupPath.Proofs.Evaluation.Directions
import MarkupPath.Proofs.Evaluation.DocumentOrder
import MarkupPath.Proofs.Evaluation.EachRoot
import MarkupPath.Proofs.Evaluation.Kinds
import MarkupPath.Proofs.Evaluation.Limit
import MarkupPath.Proofs.Evaluation.Matching
import MarkupPath.Proofs.Evaluation.Meaning
import MarkupPath.Proofs.Evaluation.Order
import MarkupPath.Proofs.Evaluation.Predicates
import MarkupPath.Proofs.Evaluation.Renaming
import MarkupPath.Proofs.Evaluation.RootSet
import MarkupPath.Proofs.Evaluation.Shape
import MarkupPath.Proofs.Evaluation.Suborder
import MarkupPath.Proofs.Evaluation.Survivors
import MarkupPath.Proofs.Evaluation.Thresholds
import MarkupPath.Proofs.Evaluation.TwoRuns
import MarkupPath.Proofs.Evaluation.Union
import MarkupPath.Proofs.Evaluation.Visiting
import MarkupPath.Proofs.Markup.AttributeGrammar
import MarkupPath.Proofs.Markup.AttributeList
import MarkupPath.Proofs.Markup.AttributeNames
import MarkupPath.Proofs.Markup.Doctype
import MarkupPath.Proofs.Markup.Escape
import MarkupPath.Proofs.Markup.Joining
import MarkupPath.Proofs.Markup.Name
import MarkupPath.Proofs.Markup.Reader
import MarkupPath.Proofs.Markup.Relocation
import MarkupPath.Proofs.Markup.Replacement
import MarkupPath.Proofs.Markup.Scanning
import MarkupPath.Proofs.Markup.Writer
import MarkupPath.Proofs.Number.Bits
import MarkupPath.Proofs.Number.Bytes
import MarkupPath.Proofs.Number.Leading
import MarkupPath.Proofs.Number.Literal
import MarkupPath.Proofs.Number.Nearest
import MarkupPath.Proofs.Number.Reading
import MarkupPath.Proofs.Number.Rounding
import MarkupPath.Proofs.Number.Shortest
import MarkupPath.Proofs.Query.Blame
import MarkupPath.Proofs.Query.Cache
import MarkupPath.Proofs.Query.Calls
import MarkupPath.Proofs.Query.Climbing
import MarkupPath.Proofs.Query.Derivation
import MarkupPath.Proofs.Query.Digits
import MarkupPath.Proofs.Query.Every
import MarkupPath.Proofs.Query.Form
import MarkupPath.Proofs.Query.Grammar
import MarkupPath.Proofs.Query.Height
import MarkupPath.Proofs.Query.Legible
import MarkupPath.Proofs.Query.Lexing
import MarkupPath.Proofs.Query.Lossless
import MarkupPath.Proofs.Query.Passing
import MarkupPath.Proofs.Query.Paths
import MarkupPath.Proofs.Query.Phrase
import MarkupPath.Proofs.Query.Recognition
import MarkupPath.Proofs.Query.Recording
import MarkupPath.Proofs.Query.Rendering
import MarkupPath.Proofs.Query.Resuming
import MarkupPath.Proofs.Query.RoundTrip
import MarkupPath.Proofs.Query.Scan
import MarkupPath.Proofs.Query.Spacing
import MarkupPath.Proofs.Query.Stream
import MarkupPath.Proofs.Query.Stuck
import MarkupPath.Proofs.Query.Threshold
import MarkupPath.Proofs.Selection.BulkEdits
import MarkupPath.Proofs.Selection.Filtering
import MarkupPath.Proofs.Selection.Filters
import MarkupPath.Proofs.Selection.Members
import MarkupPath.Proofs.Selection.Narrowing
import MarkupPath.Proofs.Selection.Sources
import MarkupPath.Proofs.Text.Bytes
import MarkupPath.Proofs.Text.Cut
import MarkupPath.Proofs.Tree.Assembly
import MarkupPath.Proofs.Tree.Boundary
import MarkupPath.Proofs.Tree.Building
import MarkupPath.Proofs.Tree.Copy
import MarkupPath.Proofs.Tree.Edits
import MarkupPath.Proofs.Tree.Ending
import MarkupPath.Proofs.Tree.Indentation
import MarkupPath.Proofs.Tree.Layout
import MarkupPath.Proofs.Tree.Marker
import MarkupPath.Proofs.Tree.Moving
import MarkupPath.Proofs.Tree.Options
import MarkupPath.Proofs.Tree.Order
import MarkupPath.Proofs.Tree.Outside
import MarkupPath.Proofs.Tree.Part
import MarkupPath.Proofs.Tree.Printing
import MarkupPath.Proofs.Tree.Prolog
import MarkupPath.Proofs.Tree.Reachable
import MarkupPath.Proofs.Tree.Refusal
import MarkupPath.Proofs.Tree.Renaming
import MarkupPath.Proofs.Tree.Rereading
import MarkupPath.Proofs.Tree.Spelling
import MarkupPath.Proofs.Tree.Stepwise
import MarkupPath.Proofs.Tree.View
import MarkupPath.Proofs.Tree.Walk
import MarkupPath.Proofs.Tree.WellFormed
import MarkupPath.Proofs.Tree.Written
import MarkupPath.Query.Cache
import MarkupPath.Query.Expr
import MarkupPath.Query.Expr.Calls
import MarkupPath.Query.Expr.Parse
import MarkupPath.Query.Expr.Text
import MarkupPath.Query.Expression
import MarkupPath.Query.Fault
import MarkupPath.Query.Token
import MarkupPath.Query.Token.Read
import MarkupPath.Selection.BulkEdit
import MarkupPath.Selection.ResultSet
import MarkupPath.Text.Blank
import MarkupPath.Text.Bytes
import MarkupPath.Text.Cut
import MarkupPath.Text.Letter
import MarkupPath.Text.Place
import MarkupPath.Text.Truth
import MarkupPath.Tree.Assembly
import MarkupPath.Tree.Document
import MarkupPath.Tree.Edit
import MarkupPath.Tree.Node
import MarkupPath.Tree.Print
import MarkupPath.Tree.Walk
