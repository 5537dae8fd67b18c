import Docblock.Command.Sink
import Docblock.Main
import Docblock.Proofs.Token.Boundary
import Docblock.Proofs.Token.Shape
import Docblock.Proofs.Token.Blanks
import Docblock.Proofs.Lexeme.Words
import Docblock.Proofs.Lexeme.Passing
import Docblock.Proofs.Lexeme.Phrase
import Docblock.Proofs.Lexeme.Respacing
import Docblock.Proofs.TypeExpr.Grammar
import Docblock.Proofs.TypeExpr.Sound
import Docblock.Proofs.TypeExpr.Complete
import Docblock.Proofs.TypeExpr.Derivation
import Docblock.Proofs.TypeExpr.Respelling
import Docblock.Proofs.TypeExpr.Normal
import Docblock.Proofs.TypeExpr.Agreement
import Docblock.Proofs.TypeExpr.RoundTrip
import Docblock.Proofs.TypeExpr.Language
import Docblock.Proofs.Comment.Lines
import Docblock.Proofs.Comment.Fields
import Docblock.Proofs.Comment.Rows
import Docblock.Proofs.Comment.Prose
import Docblock.Proofs.Comment.Pieces
import Docblock.Proofs.Comment.Reprint
import Docblock.Proofs.Comment.Layout
import Docblock.Proofs.Comment.RoundTrip
import Docblock.Proofs.Source.Closing
import Docblock.Proofs.Comment.Content
import Docblock.Proofs.Comment.Braces
import Docblock.Proofs.Source.Steps
import Docblock.Proofs.Source.Segments
import Docblock.Proofs.Source.Structure
import Docblock.Proofs.Source.Stability
import Docblock.Proofs.Comment.FixedPoint
import Docblock.Proofs.Position
import Docblock.Proofs.Token.Placement
import Docblock.Proofs.TypeExpr.Displacement
import Docblock.Proofs.Comment.Displacement
import Docblock.Proofs.Comment.Refusal
import Docblock.Proofs.Source.Ranges
import Docblock.Proofs.Source.Findings
import Docblock.Proofs.Comment.Independence
import Docblock.Proofs.Comment.FreeText
import Docblock.Proofs.TypeExpr.Trailing
import Docblock.Proofs.Comment.Trailing
import Docblock.Proofs.Comment.LineEnds
import Docblock.Proofs.Project.Path
import Docblock.Proofs.Project.Tree
import Docblock.Proofs.Project.Workspace
import Docblock.Proofs.Project.Scan
import Docblock.Proofs.Command.Session
import Docblock.Proofs.Command.Rewriting
import Docblock.Proofs.Yaml.Lines
import Docblock.Proofs.Yaml.Sections
import Docblock.Proofs.Command.ManifestText
import Docblock.Proofs.Command.TopLevel
import Docblock.Proofs.Command.Init
import Docblock.Proofs.Columns
import Docblock.Proofs.TypeExpr.Canonical
import Docblock.Proofs.Comment.Canonical
import Docblock.Proofs.TypeExpr.HandBack
import Docblock.Proofs.Comment.Slices
import Docblock.Proofs.TypeExpr.Front
import Docblock.Proofs.Comment.Method
import Docblock.Proofs.Token.Pattern
import Docblock.Proofs.Token.LongestMatch
import Docblock.Proofs.Token.Cursor
import Docblock.Proofs.TypeExpr.Spacing
import Docblock.Proofs.Comment.TagName
import Docblock.Proofs.Project.Pattern
import Docblock.Proofs.Text.ByteOrder
import Docblock.Proofs.Project.Listing
import Docblock.Proofs.TypeExpr.Nesting
import Docblock.Proofs.Comment.Nesting
import Docblock.Stream.Basic
import Docblock.Stream.TypeExpr
import Docblock.Stream.Comment
import Docblock.Proofs.Lexeme.Attach
import Docblock.Proofs.Stream.Cursor
import Docblock.Proofs.Stream.Backup
import Docblock.Proofs.Stream.Mirror
import Docblock.Proofs.Stream.TypeExpr
import Docblock.Proofs.Stream.Raw
import Docblock.Proofs.Stream.Comment
import Docblock.Proofs.Stream.Whole
