import Tiered.Main
import Tiered.Dot.Printer
import Tiered.Proofs.Table
import Tiered.Proofs.Dot.Grammar
import Tiered.Proofs.Dot.Reading
import Tiered.Proofs.Dot.Canonical
import Tiered.Proofs.Dot.RoundTrip
import Tiered.Proofs.Dot.Lexeme
import Tiered.Proofs.Dot.Lexing
import Tiered.Proofs.Dot.Soundness
import Tiered.Proofs.Dot.Completeness
import Tiered.Proofs.Dot.Acceptance
import Tiered.Proofs.Dot.Failing
import Tiered.Proofs.Dot.Places
import Tiered.Proofs.Dot.Targets
import Tiered.Proofs.Dot.Glimpses
import Tiered.Proofs.Dot.Scoping
import Tiered.Proofs.Dot.Merging
import Tiered.Proofs.Dot.Strictness
import Tiered.Proofs.Label
import Tiered.Proofs.Label.Lines
import Tiered.Proofs.Layering.Layers
import Tiered.Proofs.Layering.Ordering
import Tiered.Proofs.Layering.Sequence
import Tiered.Proofs.Layering.Degrees
import Tiered.Proofs.Layering.Feedback
import Tiered.Proofs.Layering.Peeling
import Tiered.Proofs.Layering.Ranking
import Tiered.Proofs.Layering.LongestWays
import Tiered.Proofs.Layering.Chains
import Tiered.Proofs.Layering.Bends
import Tiered.Proofs.Layering.Proper
import Tiered.Proofs.Layering.Inversions
import Tiered.Proofs.Layering.Crossings
import Tiered.Proofs.Layering.Counting
import Tiered.Proofs.Layering.Medians
import Tiered.Proofs.Layering.Exchanges
import Tiered.Proofs.Layering.Search
import Tiered.Proofs.Layering.DepthFirst
import Tiered.Proofs.Guarded.Access
import Tiered.Proofs.Guarded.Feedback
import Tiered.Proofs.Guarded.Ranking
import Tiered.Proofs.Guarded.Layered
import Tiered.Proofs.Guarded.Ordering
import Tiered.Proofs.Exact
import Tiered.Proofs.Decimal.Hundredths
import Tiered.Proofs.Checked
import Tiered.Proofs.Layout.Isotonic
import Tiered.Proofs.Layout.LeastSquares
import Tiered.Proofs.Layout.Placement
import Tiered.Proofs.Layout.Energy
import Tiered.Proofs.Layout.Stages
import Tiered.Proofs.Layout.Separation
import Tiered.Proofs.Layout.Ranks
import Tiered.Proofs.Layout.Spans
import Tiered.Proofs.Layout.Turning
import Tiered.Proofs.Layout.Crossings
import Tiered.Proofs.Layout.Forests
import Tiered.Proofs.Layout.Outlines
import Tiered.Proofs.Layout.Routes
import Tiered.Proofs.Layout.Parallel
import Tiered.Proofs.Layout.Bands
import Tiered.Proofs.Layout.Rooms
import Tiered.Proofs.Layout.LongEdges
import Tiered.Proofs.Layout.Frame
import Tiered.Proofs.Layout.Symmetry.Routes
import Tiered.Proofs.Layout.Symmetry.Frame
import Tiered.Proofs.Layout.Directions
import Tiered.Proofs.Layout.Defined.Coordinates
import Tiered.Proofs.Layout.Defined.Clipping
import Tiered.Proofs.Layout.Defined.Routes
import Tiered.Proofs.Layout.Defined.Arranged
import Tiered.Proofs.Guarded.Coordinates
import Tiered.Proofs.Guarded.Layout
import Tiered.Proofs.Pipeline
import Tiered.Proofs.Widget
import Tiered.Proofs.Markup.Xml
import Tiered.Proofs.Markup.Reading
import Tiered.Proofs.Scene.Svg
import Tiered.Proofs.Drawing
