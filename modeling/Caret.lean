import Caret.Main
import Caret.Proofs.Syntax.Nesting
import Caret.Proofs.Text.Lines
import Caret.Proofs.Text.Runs
import Caret.Proofs.Text.SpanOrder
import Caret.Proofs.Text.Decimals
import Caret.Proofs.Buffer.Enclosing
import Caret.Proofs.Symbols.Assignments
import Caret.Proofs.Symbols.Visibility
import Caret.Proofs.Chain.Comments
import Caret.Proofs.Chain.Blanking
import Caret.Proofs.Chain.Provenance
import Caret.Proofs.Chain.Brackets
import Caret.Proofs.Chain.Walks
import Caret.Proofs.Chain.Composition
import Caret.Proofs.Chain.Expressions
import Caret.Proofs.Chain.Operators
import Caret.Proofs.Chain.Parentheses
import Caret.Proofs.Cursor.Recipients
import Caret.Proofs.Symbols.Latest
import Caret.Proofs.Symbols.Trails
import Caret.Proofs.Cursor.Trails
import Caret.Proofs.Cursor.Bindings
import Caret.Proofs.Chain.Whitespace
import Caret.Proofs.Chain.StrayParentheses
import Caret.Proofs.Cursor.Arguments
import Caret.Proofs.Chain.Lookahead
import Caret.Proofs.Chain.Suffixes
import Caret.Proofs.Chain.Identifiers
import Caret.Proofs.Cursor.WholeWords
import Caret.Proofs.Cursor.Resolution
import Caret.Proofs.Buffer.Edges
import Caret.Proofs.Text.Positions
import Caret.Proofs.Symbols.Records
import Caret.Proofs.Symbols.MethodScopes
import Caret.Proofs.Symbols.Completeness
import Caret.Proofs.Cursor.Scopes
import Caret.Proofs.Command.Targets
import Caret.Proofs.Settings.Limit
import Caret.Proofs.Command.Tasks
import Caret.Proofs.Command.Agreement
import Caret.Proofs.Chain.OpenBrackets
import Caret.Proofs.Chain.Decomposition
import Caret.Proofs.Chain.Separators
import Caret.Proofs.Cursor.WordRanges
import Caret.Proofs.Chain.Fronts
import Caret.Proofs.Cursor.Literals
import Caret.Proofs.Buffer.Comments
import Caret.Proofs.Cursor.NamedClasses
import Caret.Proofs.Cursor.Words
import Caret.Proofs.Cursor.Exactness
import Caret.Proofs.Cursor.LiteralText
import Caret.Proofs.Cursor.Silence
import Caret.Proofs.Chain.Skipping
import Caret.Proofs.Text.Quotation
import Caret.Proofs.Report.Unambiguous
import Caret.Proofs.Report.Places
