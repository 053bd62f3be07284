import Tiered.Decimal.Reader
import Tiered.Text.Blank
import Tiered.Text.Columns
import Tiered.Shape

/-!
Spacing and text metrics. What is set from outside wins over the attributes of the graph, and these
win over the defaults.
-/
namespace Tiered

/-- The side that the first rank is on, and the side that ranks run to. -/
inductive Direction where
  | topBottom
  | bottomTop
  | leftRight
  | rightLeft
  deriving DecidableEq, Repr, Inhabited

structure UnknownDirection where
  /-- The name without blanks at its ends, in capitals. -/
  name : String
  deriving DecidableEq, Repr

namespace Direction

def isHorizontal (d : Direction) : Bool := d == leftRight || d == rightLeft

/-- Reads a direction in any ASCII letter case, with blanks around it. -/
def ofName (name : String) : Except UnknownDirection Direction :=
  match (Text.trim name).map Char.toUpper with
  | "TB" | "TD" => .ok topBottom
  | "BT" => .ok bottomTop
  | "LR" => .ok leftRight
  | "RL" => .ok rightLeft
  | other => .error ⟨other⟩

end Direction

def UnknownDirection.message (e : UnknownDirection) : String :=
  "unknown rank direction '" ++ e.name ++ "'; use TB, BT, LR or RL"

variable {K : Type} [Scalar K]

/-- The sizes that texts are measured with. -/
structure TextMetrics (K : Type) where
  fontSize : K
  /-- The advance of one column. -/
  charWidth : K
  lineHeight : K
  paddingX : K
  paddingY : K
  deriving DecidableEq, Repr

namespace TextMetrics

def standard : TextMetrics K :=
  { fontSize := 14, charWidth := 8, lineHeight := 18, paddingX := 10, paddingY := 10 }

/-- Width and height of some lines; no lines are as high as one. -/
def textSize (m : TextMetrics K) (lines : List String) : K × K :=
  ((Text.widest lines : K) * m.charWidth, (max lines.length 1 : Nat) * m.lineHeight)

/-- Width and height of a node of this shape around some lines. -/
def nodeSize (m : TextMetrics K) (lines : List String) (shape : Shape) : K × K :=
  let (textWidth, textHeight) := m.textSize lines
  let w := textWidth + 2 * m.paddingX
  let h := textHeight + 2 * m.paddingY
  match shape with
  | .box | .ellipse | .plain => (w, h)
  | .circle => (max w h, max w h)
  | .diamond => (w * Scalar.sqrt 2, h * Scalar.sqrt 2)

end TextMetrics

structure Settings (K : Type) where
  direction : Direction
  /-- The gap between neighbouring nodes of a rank. -/
  nodeSep : K
  /-- The gap between ranks. -/
  rankSep : K
  /-- The gap between neighbouring bends of edges in a rank. -/
  edgeSep : K
  /-- The space around the drawing. -/
  margin : K
  text : TextMetrics K
  deriving DecidableEq, Repr

/-- What is set from outside the text of the graph. -/
structure Overrides (K : Type) where
  direction : Option Direction := none
  nodeSep : Option K := none
  rankSep : Option K := none
  deriving DecidableEq, Repr

namespace Settings

def standard : Settings K :=
  { direction := .topBottom, nodeSep := 50, rankSep := 50, edgeSep := 20, margin := 20,
    text := .standard }

/-- The length that an attribute begins with; the words behind the first say nothing. -/
def lengthAttr? (g : Graph) (key : String) : Option K :=
  (g.attr? key).bind Text.firstWord? |>.bind Numeral.length?

/-- Overlays the attributes of a graph. Unknown directions and what is no length are passed over. -/
def overlay (s : Settings K) (g : Graph) : Settings K :=
  { s with
    direction := ((g.attr? "rankdir").bind fun d => (Direction.ofName d).toOption).getD s.direction
    nodeSep := (lengthAttr? g "nodesep").getD s.nodeSep
    rankSep := (lengthAttr? g "ranksep").getD s.rankSep
    edgeSep := (lengthAttr? g "edgesep").getD s.edgeSep
    margin := (lengthAttr? g "margin").getD s.margin }

def ofGraph (g : Graph) : Settings K := overlay standard g

end Settings

namespace Overrides

/-- Overlays what is set; separations that are no lengths are passed over. -/
def apply (o : Overrides K) (s : Settings K) : Settings K :=
  { s with
    direction := o.direction.getD s.direction
    nodeSep := (o.nodeSep.filter Scalar.isLength).getD s.nodeSep
    rankSep := (o.rankSep.filter Scalar.isLength).getD s.rankSep }

def resolve (o : Overrides K) (g : Graph) : Settings K := o.apply (.ofGraph g)

end Overrides
end Tiered
