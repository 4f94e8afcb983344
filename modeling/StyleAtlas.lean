import StyleAtlas.Engine.Analysis
import StyleAtlas.Engine.Subject
import StyleAtlas.Engine.Walk
import StyleAtlas.Hint.Block
import StyleAtlas.Hint.Occurrence
import StyleAtlas.Hint.Scanner
import StyleAtlas.Index.Basic
import StyleAtlas.Index.Error
import StyleAtlas.Index.Search
import StyleAtlas.Outline.Backfill
import StyleAtlas.Outline.Basic
import StyleAtlas.Outline.Builder
import StyleAtlas.Outline.Error
import StyleAtlas.Outline.Forest
import StyleAtlas.Outline.Kind
import StyleAtlas.Outline.Node
import StyleAtlas.Sheet.Error
import StyleAtlas.Sheet.Index
import StyleAtlas.Sheet.Node
import StyleAtlas.Sheet.Parser
import StyleAtlas.Sheet.Piece
import StyleAtlas.Sheet.Point
import StyleAtlas.Survey.Basic
import StyleAtlas.Survey.Projection
import StyleAtlas.Survey.Session
import StyleAtlas.Text.Alphanumeric
import StyleAtlas.Text.Blank
import StyleAtlas.Text.Case
import StyleAtlas.Text.Error
import StyleAtlas.Text.Extent
import StyleAtlas.Text.Measure
import StyleAtlas.Text.Position
import StyleAtlas.Text.Source
import StyleAtlas.Text.Token
import StyleAtlas.Proofs.Engine.Arrangement
import StyleAtlas.Proofs.Engine.Faithful
import StyleAtlas.Proofs.Engine.Places
import StyleAtlas.Proofs.Engine.Plan
import StyleAtlas.Proofs.Engine.Scanning
import StyleAtlas.Proofs.Engine.UnitColumns
import StyleAtlas.Proofs.Hint.BlockEnds
import StyleAtlas.Proofs.Hint.ByteBounds
import StyleAtlas.Proofs.Hint.ByteLexers
import StyleAtlas.Proofs.Hint.ByteScan
import StyleAtlas.Proofs.Hint.ByteTokens
import StyleAtlas.Proofs.Hint.Declarations
import StyleAtlas.Proofs.Hint.FindOrder
import StyleAtlas.Proofs.Hint.Importance
import StyleAtlas.Proofs.Hint.Occurrence
import StyleAtlas.Proofs.Hint.Placement
import StyleAtlas.Proofs.Hint.Segments
import StyleAtlas.Proofs.Hint.SourceOrder
import StyleAtlas.Proofs.Index.Additions
import StyleAtlas.Proofs.Index.Halving
import StyleAtlas.Proofs.Index.Laminar
import StyleAtlas.Proofs.Index.Lookup
import StyleAtlas.Proofs.Index.Search
import StyleAtlas.Proofs.Links
import StyleAtlas.Proofs.Loop
import StyleAtlas.Proofs.Outline.Arrival
import StyleAtlas.Proofs.Outline.Backfill
import StyleAtlas.Proofs.Outline.Checked
import StyleAtlas.Proofs.Outline.Delimited
import StyleAtlas.Proofs.Outline.Ends
import StyleAtlas.Proofs.Outline.Grounded
import StyleAtlas.Proofs.Outline.Indexed
import StyleAtlas.Proofs.Outline.LinkTable
import StyleAtlas.Proofs.Outline.Nesting
import StyleAtlas.Proofs.Outline.Pending
import StyleAtlas.Proofs.Outline.PendingTable
import StyleAtlas.Proofs.Outline.Preorder
import StyleAtlas.Proofs.Outline.Shape
import StyleAtlas.Proofs.Outline.Tiling
import StyleAtlas.Proofs.Outline.Visit
import StyleAtlas.Proofs.Sheet.Anchors
import StyleAtlas.Proofs.Sheet.Cursor
import StyleAtlas.Proofs.Sheet.Descent
import StyleAtlas.Proofs.Sheet.Fields
import StyleAtlas.Proofs.Sheet.Gaps
import StyleAtlas.Proofs.Sheet.Indexed
import StyleAtlas.Proofs.Sheet.Items
import StyleAtlas.Proofs.Sheet.Iteration
import StyleAtlas.Proofs.Sheet.Joined
import StyleAtlas.Proofs.Sheet.Layout
import StyleAtlas.Proofs.Sheet.Listings
import StyleAtlas.Proofs.Sheet.Points
import StyleAtlas.Proofs.Sheet.Pushdown
import StyleAtlas.Proofs.Sheet.Rendering
import StyleAtlas.Proofs.Sheet.Seating
import StyleAtlas.Proofs.Sheet.Shifted
import StyleAtlas.Proofs.Sheet.Spelling
import StyleAtlas.Proofs.Sheet.Standing
import StyleAtlas.Proofs.Survey.Projection
import StyleAtlas.Proofs.Text.Boundary
import StyleAtlas.Proofs.Text.Clamping
import StyleAtlas.Proofs.Text.Lexing
import StyleAtlas.Proofs.Text.LineTable
import StyleAtlas.Proofs.Text.Lines
import StyleAtlas.Proofs.Text.Positions
import StyleAtlas.Proofs.Text.Tokens
import StyleAtlas.Proofs.Text.WalkBack
