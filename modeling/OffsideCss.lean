import OffsideCss.Text
import OffsideCss.Text.Blank
import OffsideCss.Text.Span
import OffsideCss.Text.Counter
import OffsideCss.Text.Position
import OffsideCss.Text.LineIndex
import OffsideCss.Text.Run
import OffsideCss.Token
import OffsideCss.Token.Scan
import OffsideCss.Node
import OffsideCss.Sheet
import OffsideCss.Edit
import OffsideCss.Cause
import OffsideCss.Separator
import OffsideCss.Line
import OffsideCss.Indentation
import OffsideCss.Statement
import OffsideCss.Statement.Reading
import OffsideCss.Sheet.InPlace
import OffsideCss.Sheet.Parse
import OffsideCss.Reader.Scanner
import OffsideCss.Reader.Lines
import OffsideCss.Reader.Levels
import OffsideCss.Reader.Items
import OffsideCss.Reader.Parse
import OffsideCss.Layout.Reindent
import OffsideCss.Layout
import OffsideCss.Layout.PositionMap
import OffsideCss.Css
import OffsideCss.Report
import OffsideCss.Proofs.TokenShape
import OffsideCss.Proofs.ScanAppend
import OffsideCss.Proofs.LineLayout
import OffsideCss.Proofs.LineCut
import OffsideCss.Proofs.Grouping
import OffsideCss.Proofs.StatementText
import OffsideCss.Proofs.Outline
import OffsideCss.Proofs.IndentStep
import OffsideCss.Proofs.DraftRun
import OffsideCss.Proofs.IndentRun
import OffsideCss.Proofs.RoundTrip
import OffsideCss.Proofs.FaultPlace
import OffsideCss.Proofs.DepthRun
import OffsideCss.Proofs.Relayout
import OffsideCss.Proofs.Words
import OffsideCss.Proofs.Building
import OffsideCss.Proofs.PlainItem
import OffsideCss.Proofs.PlainSheet
import OffsideCss.Proofs.LineGaps
import OffsideCss.Proofs.Ink
import OffsideCss.Proofs.OwnText
import OffsideCss.Proofs.Alignment
import OffsideCss.Proofs.Legible
import OffsideCss.Proofs.Seats
import OffsideCss.Proofs.Offside
import OffsideCss.Proofs.PositionOrder
import OffsideCss.Proofs.SourceRange
import OffsideCss.Proofs.MapOrder
import OffsideCss.Proofs.LineIndex
import OffsideCss.Proofs.Weaving
import OffsideCss.Proofs.NodeTokens
import OffsideCss.Proofs.LineBreaks
import OffsideCss.Proofs.Tiling
import OffsideCss.Proofs.Variant
import OffsideCss.Proofs.VariantNode
import OffsideCss.Proofs.VariantRun
import OffsideCss.Proofs.VariantLines
import OffsideCss.Proofs.LineEndings
import OffsideCss.Proofs.Respacing
import OffsideCss.Proofs.BlankLines
import OffsideCss.Proofs.RelativeIndent
import OffsideCss.Proofs.Links
import OffsideCss.Proofs.Arena
import OffsideCss.Proofs.NodeMaps
import OffsideCss.Proofs.Unspelled
import OffsideCss.Proofs.MapPlaces
import OffsideCss.Proofs.Pieces
import OffsideCss.Proofs.Rewording
import OffsideCss.Proofs.ColonLines
import OffsideCss.Proofs.Skim
import OffsideCss.Proofs.FieldTokens
import OffsideCss.Proofs.Seams
import OffsideCss.Proofs.CssTokens
import OffsideCss.Proofs.OffsetPositions
import OffsideCss.Proofs.TokenCut
import OffsideCss.Proofs.Reindentation
import OffsideCss.Proofs.BracketDepth
import OffsideCss.Proofs.Reader.Scanner
import OffsideCss.Proofs.Reader.Lines
import OffsideCss.Proofs.Reader.Levels
import OffsideCss.Proofs.Reader.Items
import OffsideCss.Proofs.Reader.Statements
import OffsideCss.Proofs.Reader.Parse
